import Mcpkit.Json.Clone
import Mcpkit.Lib.Heap

/-!
# Values in memory

A value of the JSON backend is a tree of nodes on the heap; texts and keys are part of the node that
holds them.  The functions that build, change, copy and destroy values follow the pointers; no
allocation fails.  `Rep` says that a node is the root of a value, `IsNode` which nodes belong to it.
-/

namespace Mcpkit.Json

open List Prod Assoc

/-- A node: `struct mcp_json_value`. -/
inductive Node where
  | null
  | bool (b : Bool)
  | number (d : FiniteDouble)
  | string (s : JString)
  | array (items : List Nat)
  | object (members : List (JString × Nat))

namespace Node

def parts : Node → List Nat
  | array items => items
  | object members => members.map snd
  | _ => []

theorem parts_eq_nil {n : Node} (harray : ∀ items, n = array items → False)
    (hobject : ∀ members, n = object members → False) : n.parts = [] := by
  cases n with
  | array items => exact (harray items rfl).elim
  | object members => exact (hobject members rfl).elim
  | _ => rfl

end Node

abbrev NodeHeap := Heap Node

namespace NodeHeap

inductive Rep (h : NodeHeap) : Nat → JsonValue → Prop
  | null {a : Nat} (cell : h.cells a = some .null) : Rep h a .null
  | bool {a : Nat} {b : Bool} (cell : h.cells a = some (.bool b)) : Rep h a (.bool b)
  | number {a : Nat} {d : FiniteDouble} (cell : h.cells a = some (.number d)) : Rep h a (.number d)
  | string {a : Nat} {s : JString} (cell : h.cells a = some (.string s)) : Rep h a (.string s)
  | array {a : Nat} {as : List Nat} {vs : List JsonValue} (cell : h.cells a = some (.array as))
      (size : as.length = vs.length)
      (items : ∀ (i : Nat) (x : Nat) (v : JsonValue), as[i]? = some x → vs[i]? = some v →
        Rep h x v) :
      Rep h a (.array vs)
  | object {a : Nat} {as : List (JString × Nat)} {ms : MemberList}
      (cell : h.cells a = some (.object as)) (keys : keys as = keys ms)
      (members : ∀ (i : Nat) (p : JString × Nat) (q : JString × JsonValue), as[i]? = some p →
        ms[i]? = some q → Rep h p.2 q.2) :
      Rep h a (.object ms)

inductive IsNode (h : NodeHeap) : Nat → Nat → Prop
  | root (a : Nat) : IsNode h a a
  | part {a b c : Nat} {n : Node} (cell : h.cells a = some n) (hb : b ∈ n.parts)
      (hc : IsNode h b c) : IsNode h a c

/-- `builtin_destroy`, with a bound on the nesting: the parts first, then the node. -/
def destroyFrom : Nat → NodeHeap → Nat → NodeHeap
  | 0, h, _ => h
  | fuel + 1, h, a =>
    match h.cells a with
    | none => h
    | some n => (n.parts.foldl (destroyFrom fuel) h).free a

/-- `mcp_json_destroy`; a tree is not nested more deeply than there are nodes. -/
def mcpJsonDestroy (h : NodeHeap) (a : Nat) : NodeHeap := destroyFrom (h.next + 1) h a

def arrayAppend (h : NodeHeap) (arr val : Nat) : NodeHeap :=
  match h.cells arr with
  | some (.array items) => h.store arr (.array (items ++ [val]))
  | _ => h

/-- `builtin_object_set`: the value that was under the key is destroyed. -/
def objectSet (h : NodeHeap) (obj : Nat) (key : JString) (val : Nat) : NodeHeap :=
  match h.cells obj with
  | some (.object members) =>
    let h := match members.lookup key with
      | some old => mcpJsonDestroy h old
      | none => h
    h.store obj (.object (set members key val))
  | _ => h

/-- `mcp_json_clone`, with a bound on the nesting.  The keys of an object are looked up one by
one. -/
def clone : Nat → NodeHeap → Nat → Option (Nat × NodeHeap)
  | 0, _, _ => none
  | fuel + 1, h, a =>
    match h.cells a with
    | none => none
    | some (.array items) =>
      let out := h.next
      let loop := items.foldlM (fun h a =>
        (clone fuel h a).map fun item => arrayAppend item.2 out item.1) (h.alloc (.array [])).2
      loop.map fun h => (out, h)
    | some (.object members) =>
      let out := h.next
      let loop := members.foldlM (fun h p =>
        (members.lookup p.1).bind fun child =>
          (clone fuel h child).map fun item => objectSet item.2 out p.1 item.1)
        (h.alloc (.object [])).2
      loop.map fun h => (out, h)
    | some n => some (h.alloc n)

section

variable {h h' : NodeHeap} {a b : Nat} {v : JsonValue} {P Q : Nat → Prop}

theorem Rep.exists_cell (hrep : Rep h a v) : ∃ n, h.cells a = some n := by
  cases hrep <;> exact ⟨_, by assumption⟩

theorem rep_array_iff {as : List Nat} {vs : List JsonValue} (cell : h.cells a = some (.array as)) :
    Rep h a (.array vs) ↔ List.Forall₂ (Rep h) as vs := by
  rw [forall₂_iff_get]
  constructor
  · intro hrep
    cases hrep with
    | array cell' size items =>
      rw [cell] at cell'
      cases cell'
      refine ⟨size, fun i hi hi' => items i _ _ ?_ ?_⟩
      · exact getElem?_eq_getElem hi
      · exact getElem?_eq_getElem hi'
  · rintro ⟨size, items⟩
    refine .array cell size fun i x v hx hv => ?_
    obtain ⟨hi, rfl⟩ := List.getElem?_eq_some_iff.mp hx
    obtain ⟨hi', rfl⟩ := List.getElem?_eq_some_iff.mp hv
    exact items i hi hi'

theorem rep_object_iff {as : List (JString × Nat)} {ms : MemberList}
    (cell : h.cells a = some (.object as)) :
    Rep h a (.object ms) ↔ List.Forall₂ (fun p q => p.1 = q.1 ∧ Rep h p.2 q.2) as ms := by
  rw [forall₂_iff_get]
  constructor
  · intro hrep
    cases hrep with
    | object cell' keys members =>
      rw [cell] at cell'
      cases cell'
      have size : as.length = ms.length := by simpa [Assoc.keys] using congrArg List.length keys
      refine ⟨size, fun i hi hi' => ⟨?_, members i _ _ ?_ ?_⟩⟩
      · have hkey := congrArg (fun l => l[i]?) keys
        simpa [Assoc.keys, hi, hi'] using hkey
      · exact getElem?_eq_getElem hi
      · exact getElem?_eq_getElem hi'
  · rintro ⟨size, members⟩
    refine .object cell ?_ fun i p q hp hq => ?_
    · refine ext_getElem (by simpa [Assoc.keys] using size) fun i hi hi' => ?_
      simp only [Assoc.keys, length_map] at hi hi'
      simpa [Assoc.keys] using (members i hi hi').1
    · obtain ⟨hi, rfl⟩ := List.getElem?_eq_some_iff.mp hp
      obtain ⟨hi', rfl⟩ := List.getElem?_eq_some_iff.mp hq
      exact (members i hi hi').2

theorem Rep.unique {w : JsonValue} (hv : Rep h a v) (hw : Rep h a w) : v = w := by
  induction hv generalizing w with
  | null cell | bool cell | number cell | string cell => cases hw <;> simp_all
  | @array a as vs cell size _ ih =>
    cases hw with
    | @array _ as' ws cell' size' items' =>
      obtain rfl : as = as' := by simpa [cell] using cell'
      refine congrArg _ (ext_getElem (size.symm.trans size') fun i hi hi' => ?_)
      have hget := getElem?_eq_getElem (l := as) (i := i) (by omega)
      exact ih i _ _ hget (getElem?_eq_getElem hi)
        (items' i _ _ hget (getElem?_eq_getElem hi'))
    | _ => simp_all
  | @object a as ms cell keys _ ih =>
    cases hw with
    | @object _ as' ms' cell' keys' members' =>
      obtain rfl : as = as' := by simpa [cell] using cell'
      have hkeys : Assoc.keys ms = Assoc.keys ms' := keys.symm.trans keys'
      have size : as.length = ms.length := by simpa [Assoc.keys] using congrArg List.length keys
      have size' : ms.length = ms'.length := by simpa [Assoc.keys] using congrArg List.length hkeys
      refine congrArg _ (ext_getElem size' fun i hi hi' => Prod.ext ?_ ?_)
      · simpa [Assoc.keys, hi, hi'] using congrArg (fun l => l[i]?) hkeys
      · have hget := getElem?_eq_getElem (l := as) (i := i) (by omega)
        exact ih i _ _ hget (getElem?_eq_getElem hi)
          (members' i _ _ hget (getElem?_eq_getElem hi'))
    | _ => simp_all

theorem Rep.exists_part {n : Node} (hrep : Rep h a v) (cell : h.cells a = some n)
    (hb : b ∈ n.parts) : ∃ w, Rep h b w := by
  cases hrep with
  | array cell' size items =>
    rw [cell] at cell'
    cases cell'
    obtain ⟨i, hi⟩ := getElem?_of_mem hb
    obtain ⟨hlt, -⟩ := List.getElem?_eq_some_iff.mp hi
    exact ⟨_, items i b _ hi (getElem?_eq_getElem (size ▸ hlt))⟩
  | object cell' keys members =>
    rw [cell] at cell'
    cases cell'
    obtain ⟨p, hp, rfl⟩ := mem_map.mp hb
    obtain ⟨i, hi⟩ := getElem?_of_mem hp
    obtain ⟨hlt, -⟩ := List.getElem?_eq_some_iff.mp hi
    have size := congrArg List.length keys
    simp only [Assoc.keys, length_map] at size
    exact ⟨_, members i p _ hi (getElem?_eq_getElem (size ▸ hlt))⟩
  | null cell' | bool cell' | number cell' | string cell' =>
    rw [cell] at cell'
    cases cell'
    cases hb

theorem IsNode.lt_next (hb : IsNode h a b) (hrep : Rep h a v) : b < h.next := by
  induction hb generalizing v with
  | root a =>
    obtain ⟨n, cell⟩ := hrep.exists_cell
    exact Heap.lt_next cell
  | part cell hmem _ ih =>
    obtain ⟨w, hpart⟩ := hrep.exists_part cell hmem
    exact ih hpart

theorem Rep.of_agree (hrep : Rep h a v) (hagree : ∀ b, IsNode h a b → h'.cells b = h.cells b) :
    Rep h' a v := by
  induction hrep with
  | null cell => exact .null ((hagree _ (.root _)).trans cell)
  | bool cell => exact .bool ((hagree _ (.root _)).trans cell)
  | number cell => exact .number ((hagree _ (.root _)).trans cell)
  | string cell => exact .string ((hagree _ (.root _)).trans cell)
  | array cell size _ ih =>
    refine .array ((hagree _ (.root _)).trans cell) size fun i x v hx hv => ?_
    exact ih i x v hx hv fun b hb => hagree b (.part cell (mem_of_getElem? hx) hb)
  | object cell keys _ ih =>
    refine .object ((hagree _ (.root _)).trans cell) keys fun i p q hp hq => ?_
    have hmem := mem_map_of_mem (f := snd) (mem_of_getElem? hp)
    exact ih i p q hp hq fun b hb => hagree b (.part cell hmem hb)

theorem IsNode.of_agree (hagree : ∀ b, IsNode h a b → h'.cells b = h.cells b)
    (hb : IsNode h' a b) : IsNode h a b := by
  induction hb with
  | root a => exact .root a
  | part cell hmem _ ih =>
    rw [hagree _ (.root _)] at cell
    exact .part cell hmem (ih fun b hb => hagree b (.part cell hmem hb))

/-- The value at `a` is `v`, and its nodes satisfy `P`. -/
structure Tree (h : NodeHeap) (P : Nat → Prop) (a : Nat) (v : JsonValue) : Prop where
  rep : Rep h a v
  nodes : ∀ b, IsNode h a b → P b

theorem Tree.mono (ht : Tree h P a v) (hPQ : ∀ b, P b → Q b) : Tree h Q a v :=
  ⟨ht.rep, fun b hb => hPQ b (ht.nodes b hb)⟩

theorem Tree.frame (ht : Tree h P a v) (hagree : ∀ b, P b → h'.cells b = h.cells b) :
    Tree h' P a v := by
  have hnodes : ∀ b, IsNode h a b → h'.cells b = h.cells b := fun b hb => hagree b (ht.nodes b hb)
  exact ⟨ht.rep.of_agree hnodes, fun b hb => ht.nodes b (hb.of_agree hnodes)⟩

theorem Rep.tree (hrep : Rep h a v) : Tree h (· < h.next) a v := ⟨hrep, fun _ hb => hb.lt_next hrep⟩

end

end NodeHeap

end Mcpkit.Json
