import Mcpkit.Json.NodeHeap
import Mcpkit.Json.Serializer

/-!
# Copies in memory

`mcp_json_clone` makes a value of its own: the copy is the same value, in nodes
that did not exist before.  A change to a value goes through pointers to its
nodes and through new ones, so it stays inside the set of addresses it can reach;
a copy and its original have no address in common, and neither sees what becomes
of the other.
-/

namespace Mcpkit.Json.NodeHeap

open JsonValue Heap List Assoc Option Nat Prod

/-- What `clone` owes its caller: the old nodes are as they were and the copy is in new ones. -/
def CloneSpec (fuel : Nat) : Prop :=
  ∀ {h : NodeHeap} {a : Nat} {v : JsonValue}, Rep h a v → v.DistinctKeys → v.depth < fuel →
    ∃ a' h', clone fuel h a = some (a', h') ∧ SameOutside ∅ h h' ∧ Tree h' (h.next ≤ ·) a' v

def MemberTree (h : NodeHeap) (P : Nat → Prop) (p : JString × Nat) (q : JString × JsonValue) :
    Prop :=
  p.1 = q.1 ∧ Tree h P p.2 q.2

variable {v : JsonValue} {n : Node}

variable {h : NodeHeap} {a : Nat}

section

variable {fuel out : Nat} {h₀ : NodeHeap}

/-- One round of a loop: a part of the original is copied and the node at `out` is written.  What
was in the copy before stays. -/
theorem clone_round (hspec : CloneSpec fuel) (hout : h₀.next ≤ out) (hrep : Rep h₀ a v)
    (hkeys : v.DistinctKeys) (hdepth : v.depth < fuel) (hsame : SameOutside ∅ h₀ h)
    (cell : h.cells out = some n) :
    ∃ item h', clone fuel h a = some (item, h') ∧ h'.cells out = some n ∧
      ∀ n', SameOutside ∅ h₀ (h'.store out n') ∧ (h'.store out n').cells out = some n' ∧
        Tree (h'.store out n') (out < ·) item v ∧
        ∀ x w, Tree h (out < ·) x w → Tree (h'.store out n') (out < ·) x w := by
  have hrep' : Rep h a v := hrep.of_agree fun b hb =>
    hsame.cells b (Set.notMem_empty b) (hb.lt_next hrep)
  obtain ⟨item, h', hclone, hsame', htree⟩ := hspec hrep' hkeys hdepth
  have hlt : out < h.next := lt_next cell
  have cell' : h'.cells out = some n := (hsame'.cells out (Set.notMem_empty out) hlt).trans cell
  refine ⟨item, h', hclone, cell', fun n' => ?_⟩
  have hagree : ∀ b, out < b → (h'.store out n').cells b = h'.cells b :=
    fun b hb => h'.cells_store_of_ne (ne_of_gt hb) n'
  refine ⟨⟨(hsame.trans hsame').next, fun b hb hlt' => ?_⟩, ?_, ?_, fun x w hx => ?_⟩
  · rw [h'.cells_store_of_ne (by omega)]
    exact (hsame.trans hsame').cells b hb hlt'
  · exact h'.cells_store_self (lt_next cell') n'
  · exact (htree.mono fun b hb => lt_of_lt_of_le hlt hb).frame hagree
  have hlive : Tree h (fun b => out < b ∧ b < h.next) x w :=
    ⟨hx.rep, fun b hb => ⟨hx.nodes b hb, hb.lt_next hx.rep⟩⟩
  refine (hlive.frame fun b hb => ?_).mono fun b hb => hb.1
  rw [hagree b hb.1, hsame'.cells b (Set.notMem_empty b) hb.2]

theorem cloneItems_spec (hspec : CloneSpec fuel) (hout : h₀.next ≤ out) {items : List Nat}
    {vs : List JsonValue} (hitems : List.Forall₂ (Rep h₀) items vs)
    (hkeys : ∀ v ∈ vs, v.DistinctKeys) (hdepth : ∀ v ∈ vs, v.depth < fuel)
    (hsame : SameOutside ∅ h₀ h) {xs : List Nat} {ws : List JsonValue}
    (cell : h.cells out = some (.array xs)) (hxs : List.Forall₂ (Tree h (out < ·)) xs ws) :
    ∃ h', items.foldlM (fun h a =>
        (clone fuel h a).map fun item => arrayAppend item.2 out item.1) h = some h' ∧
      SameOutside ∅ h₀ h' ∧ ∃ xs', h'.cells out = some (.array xs') ∧
        List.Forall₂ (Tree h' (out < ·)) xs' (ws ++ vs) := by
  induction hitems generalizing h xs ws with
  | nil => exact ⟨h, rfl, hsame, xs, cell, by rwa [append_nil]⟩
  | @cons a v items vs hrep _ ih =>
    obtain ⟨hkv, hkvs⟩ := forall_mem_cons.mp hkeys
    obtain ⟨hdv, hdvs⟩ := forall_mem_cons.mp hdepth
    obtain ⟨item, h', hclone, cell', hround⟩ := clone_round hspec hout hrep hkv hdv hsame cell
    obtain ⟨hsame', cellNew, hnew, hold⟩ := hround (.array (xs ++ [item]))
    have happend : arrayAppend h' out item = h'.store out (.array (xs ++ [item])) := by
      rw [arrayAppend, cell']
    have hall := rel_append (hxs.imp hold) (.cons hnew .nil)
    obtain ⟨h'', hloop, hsame'', xs', cell'', hxs'⟩ := ih hkvs hdvs hsame' cellNew hall
    refine ⟨h'', ?_, hsame'', xs', cell'', by rwa [append_assoc] at hxs'⟩
    rw [foldlM_cons, hclone]
    simpa only [bind_eq_bind, map_some, bind_some, happend] using hloop

theorem cloneMembers_spec (hspec : CloneSpec fuel) (hout : h₀.next ≤ out)
    {members rest : List (JString × Nat)} {ms : MemberList}
    (hlookup : ∀ p ∈ rest, members.lookup p.1 = some p.2)
    (hrest : List.Forall₂ (fun p q => p.1 = q.1 ∧ Rep h₀ p.2 q.2) rest ms)
    (hkeys : ∀ q ∈ ms, q.2.DistinctKeys) (hdepth : ∀ q ∈ ms, q.2.depth < fuel)
    (hsame : SameOutside ∅ h₀ h) {xs : List (JString × Nat)} {ws : MemberList}
    (hnodup : (keys (xs ++ rest)).Nodup) (cell : h.cells out = some (.object xs))
    (hxs : List.Forall₂ (MemberTree h (out < ·)) xs ws) :
    ∃ h', rest.foldlM (fun h p => (members.lookup p.1).bind fun child =>
        (clone fuel h child).map fun item => objectSet item.2 out p.1 item.1) h = some h' ∧
      SameOutside ∅ h₀ h' ∧ ∃ xs', h'.cells out = some (.object xs') ∧
        List.Forall₂ (MemberTree h' (out < ·)) xs' (ws ++ ms) := by
  induction hrest generalizing h xs ws with
  | nil => exact ⟨h, rfl, hsame, xs, cell, by rwa [append_nil]⟩
  | @cons p q rest ms hrep _ ih =>
    obtain ⟨hkq, hkms⟩ := forall_mem_cons.mp hkeys
    obtain ⟨hdq, hdms⟩ := forall_mem_cons.mp hdepth
    obtain ⟨hlp, hlrest⟩ := forall_mem_cons.mp hlookup
    obtain ⟨item, h', hclone, cell', hround⟩ := clone_round hspec hout hrep.2 hkq hdq hsame cell
    obtain ⟨hsame', cellNew, hnew, hold⟩ := hround (.object (xs ++ [(p.1, item)]))
    have hfresh : p.1 ∉ keys xs := notMem_of_nodup hnodup
    have hset : objectSet h' out p.1 item = h'.store out (.object (xs ++ [(p.1, item)])) := by
      rw [objectSet, cell']
      simp only [lookup_eq_none hfresh, set_of_notMem hfresh]
    have hnodup' : (keys (xs ++ [(p.1, item)] ++ rest)).Nodup := by simpa [Assoc.keys] using hnodup
    have hall : List.Forall₂ (MemberTree (h'.store out (.object (xs ++ [(p.1, item)]))) (out < ·))
        (xs ++ [(p.1, item)]) (ws ++ [q]) :=
      rel_append (hxs.imp fun _ _ hpq => ⟨hpq.1, hold _ _ hpq.2⟩)
        (.cons ⟨hrep.1, hnew⟩ .nil)
    obtain ⟨h'', hloop, hsame'', xs', cell'', hxs'⟩ :=
      ih hlrest hkms hdms hsame' hnodup' cellNew hall
    refine ⟨h'', ?_, hsame'', xs', cell'', by rwa [append_assoc] at hxs'⟩
    rw [foldlM_cons, hlp]
    simpa only [bind_eq_bind, bind_some, hclone, map_some, hset] using hloop

end

theorem isNode_cases {b : Nat} (cell : h.cells a = some n) (hb : IsNode h a b) :
    b = a ∨ ∃ x ∈ n.parts, IsNode h x b := by
  cases hb with
  | root => exact .inl rfl
  | part cell' hx hxb =>
    rw [cell] at cell'
    cases cell'
    exact .inr ⟨_, hx, hxb⟩

theorem tree_of_parts (cell : h.cells a = some n) (hrep : Rep h a v)
    (hparts : ∀ x ∈ n.parts, ∃ w, Tree h (a < ·) x w) : Tree h (a ≤ ·) a v := by
  refine ⟨hrep, fun b hb => ?_⟩
  obtain rfl | ⟨x, hx, hxb⟩ := isNode_cases cell hb
  · exact le_refl _
  · obtain ⟨w, hw⟩ := hparts x hx
    exact (hw.nodes b hxb).le

theorem tree_leaf (hn : n.parts = []) (hrep : Rep (h.alloc n).2 h.next v) :
    Tree (h.alloc n).2 (h.next ≤ ·) h.next v :=
  tree_of_parts (h.cells_alloc_next n) hrep fun _ hx => absurd hx (hn ▸ not_mem_nil)

theorem exists_of_mem_left {α β : Type*} {R : α → β → Prop} {l : List α} {l' : List β}
    (h : List.Forall₂ R l l') {x : α} (hx : x ∈ l) : ∃ y ∈ l', R x y := by
  obtain ⟨i, hi, rfl⟩ := getElem_of_mem hx
  have hi' : i < l'.length := h.length_eq ▸ hi
  exact ⟨l'[i], getElem_mem hi', h.get hi hi'⟩

theorem cloneSpec (fuel : Nat) : CloneSpec fuel := by
  induction fuel with
  | zero =>
    intro h a v _ _ hdepth
    omega
  | succ fuel ih =>
    intro h a v hrep hkeys hdepth
    have hrep' := hrep
    cases hrep' with
    | null cell =>
      refine ⟨h.next, _, by rw [clone, cell]; rfl, .alloc ∅ h .null, tree_leaf rfl ?_⟩
      exact .null (h.cells_alloc_next _)
    | @bool _ b cell =>
      refine ⟨h.next, _, by rw [clone, cell]; rfl, .alloc ∅ h (.bool b), tree_leaf rfl ?_⟩
      exact .bool (h.cells_alloc_next _)
    | @number _ d cell =>
      refine ⟨h.next, _, by rw [clone, cell]; rfl, .alloc ∅ h (.number d), tree_leaf rfl ?_⟩
      exact .number (h.cells_alloc_next _)
    | @string _ s cell =>
      refine ⟨h.next, _, by rw [clone, cell]; rfl, .alloc ∅ h (.string s), tree_leaf rfl ?_⟩
      exact .string (h.cells_alloc_next _)
    | @array _ items vs cell _ _ =>
      have hdv : ∀ v ∈ vs, v.depth < fuel := fun v hv =>
        (depth_le_of_mem hv).trans_lt (lt_of_succ_lt_succ hdepth)
      obtain ⟨h', hloop, hsame, xs, cell', hxs⟩ := cloneItems_spec ih (le_refl h.next)
        ((rep_array_iff cell).mp hrep) (fun v hv => distinctKeys_of_mem_items hkeys hv) hdv
        (.alloc ∅ h (.array [])) (h.cells_alloc_next _) .nil
      refine ⟨h.next, h', ?_, hsame, ?_⟩
      · rw [clone, cell]
        simp [hloop]
      refine tree_of_parts cell' ((rep_array_iff cell').mpr (hxs.imp fun _ _ hx => hx.rep)) ?_
      intro x hx
      obtain ⟨w, -, htree⟩ := exists_of_mem_left hxs hx
      exact ⟨w, htree⟩
    | @object _ members ms cell hsameKeys _ =>
      have hnodup : (keys members).Nodup := hsameKeys ▸ hkeys.1
      have hdm : ∀ q ∈ ms, q.2.depth < fuel := fun q hq =>
        (depth_le_of_mem_members hq).trans_lt (lt_of_succ_lt_succ hdepth)
      obtain ⟨h', hloop, hsame, xs, cell', hxs⟩ := cloneMembers_spec ih (le_refl h.next)
        (fun p hp => lookup_of_mem hnodup hp) ((rep_object_iff cell).mp hrep)
        (fun q hq => distinctKeys_of_mem hkeys.2 hq) hdm (.alloc ∅ h (.object []))
        (by rwa [nil_append]) (h.cells_alloc_next _) .nil
      refine ⟨h.next, h', ?_, hsame, ?_⟩
      · rw [clone, cell]
        simp [hloop]
      have hrep' := (rep_object_iff cell').mpr (hxs.imp fun _ _ hp => ⟨hp.1, hp.2.rep⟩)
      refine tree_of_parts cell' hrep' fun x hx => ?_
      obtain ⟨p, hp, rfl⟩ := mem_map.mp hx
      obtain ⟨q, -, htree⟩ := exists_of_mem_left hxs hp
      exact ⟨q.2, htree.2⟩

/-- What a program does to values: it makes one of a single node, changes one, copies one or
destroys one.  Values are given by their addresses. -/
inductive Change where
  | new (n : Node) (leaf : n.parts = [])
  | append (arr val : Nat)
  | set (obj : Nat) (key : JString) (val : Nat)
  | destroy (a : Nat)
  | clone (fuel a : Nat)

namespace Change

def apply (h : NodeHeap) : Change → NodeHeap
  | new n _ => (h.alloc n).2
  | append arr val => arrayAppend h arr val
  | set obj key val => objectSet h obj key val
  | destroy a => mcpJsonDestroy h a
  | clone fuel a => ((NodeHeap.clone fuel h a).map snd).getD h

/-- The pointers the change is made with are in `S`. -/
def Within (S : Set Nat) : Change → Prop
  | new _ _ => True
  | append arr val => arr ∈ S ∧ val ∈ S
  | set obj _ val => obj ∈ S ∧ val ∈ S
  | destroy a => a ∈ S
  | clone _ a => a ∈ S

end Change

def run (h : NodeHeap) (cs : List Change) : NodeHeap := cs.foldl Change.apply h

/-- What can be reached from the pointers in `R`, now or with what will be allocated. -/
def reach (h : NodeHeap) (R : Set Nat) : Set Nat := {b | (∃ r ∈ R, IsNode h r b) ∨ h.next ≤ b}

/-- No pointer leads out of `S`, and whatever is allocated is in `S`. -/
structure Domain (h : NodeHeap) (S : Set Nat) : Prop where
  closed : ∀ {a : Nat} {n : Node}, a ∈ S → h.cells a = some n → ∀ b ∈ n.parts, b ∈ S
  fresh : ∀ {a : Nat}, h.next ≤ a → a ∈ S

/-- A step that stays inside `S`. -/
structure Confined (S : Set Nat) (h h' : NodeHeap) : Prop where
  domain : Domain h' S
  same : SameOutside S h h'

section

variable {h h' h'' : NodeHeap} {S : Set Nat} {a b : Nat}

theorem IsNode.trans {c : Nat} (hab : IsNode h a b) (hbc : IsNode h b c) : IsNode h a c := by
  induction hab with
  | root => exact hbc
  | part cell hx _ ih => exact .part cell hx (ih hbc)

theorem domain_reach (h : NodeHeap) (R : Set Nat) : Domain h (reach h R) where
  closed := by
    rintro a n (⟨r, hr, hra⟩ | ha) cell b hb
    · exact .inl ⟨r, hr, hra.trans (.part cell hb (.root b))⟩
    · exact absurd (lt_next cell) (not_lt.mpr ha)
  fresh := fun ha => .inr ha

theorem Confined.refl (hd : Domain h S) : Confined S h h := ⟨hd, .refl S h⟩

theorem Confined.trans (h₁ : Confined S h h') (h₂ : Confined S h' h'') : Confined S h h'' :=
  ⟨h₂.domain, h₁.same.trans h₂.same⟩

theorem confined_alloc (hd : Domain h S) (hn : n.parts = []) : Confined S h (h.alloc n).2 := by
  refine ⟨⟨fun {a} {m} ha cell b hb => ?_, fun ha => hd.fresh (le_of_succ_le ha)⟩, .alloc S h n⟩
  obtain hlt | rfl | hgt := lt_trichotomy a h.next
  · rw [h.cells_alloc_of_lt hlt] at cell
    exact hd.closed ha cell b hb
  · rw [h.cells_alloc_next] at cell
    cases cell
    rw [hn] at hb
    cases hb
  · exact absurd (lt_next cell) (not_lt.mpr hgt)

theorem confined_store (hd : Domain h S) (ha : a ∈ S) (hn : ∀ b ∈ n.parts, b ∈ S) :
    Confined S h (h.store a n) := by
  refine ⟨⟨fun {c} {m} hc cell b hb => ?_, hd.fresh⟩, .store h ha n⟩
  by_cases hca : c = a
  · subst hca
    have hlt : c < (h.store c n).next := lt_next cell
    rw [h.cells_store_self hlt] at cell
    cases cell
    exact hn b hb
  · rw [h.cells_store_of_ne hca] at cell
    exact hd.closed hc cell b hb

theorem confined_free (hd : Domain h S) (ha : a ∈ S) : Confined S h (h.free a) := by
  refine ⟨⟨fun {c} {m} hc cell b hb => ?_, hd.fresh⟩, .free h ha⟩
  by_cases hca : c = a
  · rw [hca, h.cells_free_self] at cell
    cases cell
  · rw [h.cells_free_of_ne hca] at cell
    exact hd.closed hc cell b hb

theorem confined_foldl {step : NodeHeap → Nat → NodeHeap}
    (hstep : ∀ {h : NodeHeap} {a : Nat}, Domain h S → a ∈ S → Confined S h (step h a))
    {as : List Nat} (hd : Domain h S) (has : ∀ a ∈ as, a ∈ S) :
    Confined S h (as.foldl step h) := by
  induction as generalizing h with
  | nil => exact .refl hd
  | cons a as ih =>
    obtain ⟨ha, has⟩ := forall_mem_cons.mp has
    have hfirst := hstep hd ha
    exact hfirst.trans (ih hfirst.domain has)

theorem confined_destroyFrom (fuel : Nat) (hd : Domain h S) (ha : a ∈ S) :
    Confined S h (destroyFrom fuel h a) := by
  induction fuel generalizing h a with
  | zero => exact .refl hd
  | succ fuel ih =>
    rw [destroyFrom]
    split
    · exact .refl hd
    · next n cell =>
      have hparts := confined_foldl ih hd (hd.closed ha cell)
      exact hparts.trans (confined_free hparts.domain ha)

theorem confined_arrayAppend {val : Nat} (hd : Domain h S) (ha : a ∈ S) (hval : val ∈ S) :
    Confined S h (arrayAppend h a val) := by
  unfold arrayAppend
  split
  · next items cell =>
    refine confined_store hd ha fun b hb => ?_
    obtain hb | hb := mem_append.mp hb
    · exact hd.closed ha cell b hb
    · rwa [mem_singleton.mp hb]
  · exact .refl hd

theorem confined_objectSet {key : JString} {val : Nat} (hd : Domain h S) (ha : a ∈ S)
    (hval : val ∈ S) : Confined S h (objectSet h a key val) := by
  unfold objectSet
  split
  · next members cell =>
    have hparts := hd.closed ha cell
    have hset : ∀ b ∈ (Node.object (set members key val)).parts, b ∈ S := by
      intro b hb
      obtain ⟨p, hp, rfl⟩ := mem_map.mp hb
      obtain hp | hp := mem_set hp
      · rwa [hp]
      · exact hparts _ (mem_map_of_mem hp)
    -- The old value under the key is destroyed first.
    split
    · next old hold =>
      have hmem := hparts _ (mem_map_of_mem (f := snd) (mem_of_lookup hold))
      have hdestroy := confined_destroyFrom (h.next + 1) hd hmem
      exact hdestroy.trans (confined_store hdestroy.domain ha hset)
    · exact confined_store hd ha hset
  · exact .refl hd

theorem confined_foldlM {α : Type*} {step : NodeHeap → α → Option NodeHeap} {xs : List α}
    (hstep : ∀ {h h' : NodeHeap} {x : α}, Domain h S → x ∈ xs → step h x = some h' →
      Confined S h h') (hd : Domain h S) (hrun : xs.foldlM step h = some h') : Confined S h h' := by
  induction xs generalizing h with
  | nil =>
    cases hrun
    exact .refl hd
  | cons x xs ih =>
    rw [foldlM_cons] at hrun
    obtain ⟨h₁, hfirst, hrest⟩ := bind_eq_some_iff.mp hrun
    have hc := hstep hd mem_cons_self hfirst
    exact hc.trans (ih (fun hd hx => hstep hd (mem_cons_of_mem x hx)) hc.domain hrest)

theorem confined_clone {fuel : Nat} {r : Nat × NodeHeap} (hd : Domain h S) (ha : a ∈ S)
    (hclone : clone fuel h a = some r) : r.1 ∈ S ∧ Confined S h r.2 := by
  induction fuel generalizing h a r with
  | zero => cases hclone
  | succ fuel ih =>
    have hout : h.next ∈ S := hd.fresh (le_refl _)
    rw [clone] at hclone
    split at hclone
    · cases hclone
    · next items cell =>
      obtain ⟨h', hloop, rfl⟩ := map_eq_some_iff.mp hclone
      have hnew := confined_alloc hd (n := .array []) rfl
      refine ⟨hout, hnew.trans (confined_foldlM (fun hd hx hstep => ?_) hnew.domain hloop)⟩
      obtain ⟨item, hitem, rfl⟩ := map_eq_some_iff.mp hstep
      obtain ⟨hmem, hc⟩ := ih hd (Domain.closed ‹_› ha cell _ hx) hitem
      exact hc.trans (confined_arrayAppend hc.domain hout hmem)
    · next members cell =>
      obtain ⟨h', hloop, rfl⟩ := map_eq_some_iff.mp hclone
      have hnew := confined_alloc hd (n := .object []) rfl
      refine ⟨hout, hnew.trans (confined_foldlM (fun hd' hx hstep => ?_) hnew.domain hloop)⟩
      obtain ⟨child, hchild, hstep⟩ := bind_eq_some_iff.mp hstep
      obtain ⟨item, hitem, rfl⟩ := map_eq_some_iff.mp hstep
      have hpart := hd.closed ha cell _
        (mem_map_of_mem (f := snd) (mem_of_lookup hchild))
      obtain ⟨hmem, hc⟩ := ih hd' hpart hitem
      exact hc.trans (confined_objectSet hc.domain hout hmem)
    · next n harray hobject _ =>
      cases hclone
      exact ⟨hout, confined_alloc hd (Node.parts_eq_nil harray hobject)⟩

theorem confined_apply {c : Change} (hd : Domain h S) (hc : c.Within S) :
    Confined S h (c.apply h) := by
  cases c with
  | new n leaf => exact confined_alloc hd leaf
  | append arr val => exact confined_arrayAppend hd hc.1 hc.2
  | set obj key val => exact confined_objectSet hd hc.1 hc.2
  | destroy a => exact confined_destroyFrom _ hd hc
  | clone fuel a =>
    rw [Change.apply]
    cases hr : clone fuel h a with
    | none => exact .refl hd
    | some r => exact (confined_clone hd hc hr).2

theorem confined_run {cs : List Change} (hd : Domain h S) (hcs : ∀ c ∈ cs, c.Within S) :
    Confined S h (run h cs) := by
  induction cs generalizing h with
  | nil => exact .refl hd
  | cons c cs ih =>
    obtain ⟨hc, hcs⟩ := forall_mem_cons.mp hcs
    have hfirst := confined_apply hd hc
    exact hfirst.trans (ih hfirst.domain hcs)

/-- Changes with pointers from which no node of a value can be reached leave the value alone. -/
theorem Rep.run (hrep : Rep h a v) {R : Set Nat} (hR : ∀ r ∈ R, ∀ b, IsNode h r b → ¬ IsNode h a b)
    {cs : List Change} (hcs : ∀ c ∈ cs, c.Within (reach h R)) : Rep (run h cs) a v := by
  refine hrep.of_agree fun b hb => ?_
  have hlt := hb.lt_next hrep
  refine (confined_run (domain_reach h R) hcs).same.cells b ?_ hlt
  rintro (⟨r, hr, hrb⟩ | hge)
  · exact hR r hr b hrb hb
  · exact not_lt.mpr hge hlt

end

def Serializes [Libc] (h : NodeHeap) (a : Nat) (text : Bytes) : Prop :=
  ∃ v, Rep h a v ∧ builtinSerialize v = text

theorem serializes_iff [Libc] (hrep : Rep h a v) {text : Bytes} :
    Serializes h a text ↔ builtinSerialize v = text := by
  constructor
  · rintro ⟨w, hw, htext⟩
    rwa [hrep.unique hw]
  · exact fun htext => ⟨v, hrep, htext⟩

/-- A copy has the same text, and neither it nor the original changes when values that have no node
of it are changed, copied or destroyed. -/
theorem clone_separate [Libc] {h : NodeHeap} {a fuel : Nat} {v : JsonValue} (hrep : Rep h a v)
    (hv : Built v ∨ ∃ text, builtinParse text = some v) (hfuel : v.depth < fuel) :
    ∃ copy h', clone fuel h a = some (copy, h') ∧ Rep h' copy v ∧ Rep h' a v ∧
      (∀ text, Serializes h' copy text ↔ Serializes h a text) ∧
      (∀ b, IsNode h' a b → ¬ IsNode h' copy b) ∧
      ∀ x, x = a ∨ x = copy → ∀ (R : Set Nat) (cs : List Change),
        (∀ r ∈ R, ∀ b, IsNode h' r b → ¬ IsNode h' x b) →
        (∀ c ∈ cs, c.Within (reach h' R)) → Rep (run h' cs) x v := by
  have hkeys : v.DistinctKeys := by
    obtain hv | ⟨text, hv⟩ := hv
    · exact hv.distinctKeys
    · exact distinctKeys_builtinParse hv
  obtain ⟨copy, h', hclone, hsame, hcopy⟩ := cloneSpec fuel hrep hkeys hfuel
  have horiginal : Tree h' (· < h.next) a v :=
    hrep.tree.frame fun b hb => hsame.cells b (Set.notMem_empty b) hb
  refine ⟨copy, h', hclone, hcopy.rep, horiginal.rep, fun text => ?_, fun b hb hb' => ?_, ?_⟩
  · rw [serializes_iff hcopy.rep, serializes_iff hrep]
  · exact not_lt.mpr (hcopy.nodes b hb') (horiginal.nodes b hb)
  · rintro x (rfl | rfl) R cs hR hcs
    · exact horiginal.rep.run hR hcs
    · exact hcopy.rep.run hR hcs

/-- The nodes of `{"a": [null], "b": true}`. -/
def pairHeap : NodeHeap :=
  ((((Heap.empty.alloc .null).2.alloc (.array [0])).2.alloc (.bool true)).2.alloc
    (.object [("a", 1), ("b", 2)])).2

/-- The copy stays when the original is destroyed. -/
theorem clone_separate_pair :
    ∃ copy h', clone 3 pairHeap 3 = some (copy, h') ∧
      Rep (run h' [.destroy 3]) copy
        (.object [("a", .array [.null]), ("b", .bool true)]) := by
  have hitems : Rep pairHeap 1 (.array [.null]) := (rep_array_iff rfl).mpr (.cons (.null rfl) .nil)
  have hrep : Rep pairHeap 3 (.object [("a", .array [.null]), ("b", .bool true)]) :=
    (rep_object_iff rfl).mpr (.cons ⟨rfl, hitems⟩ (.cons ⟨rfl, .bool rfl⟩ .nil))
  have hbuilt : Built (.object [("a", .array [.null]), ("b", .bool true)]) :=
    @Built.set _ _ _ [0x62] (@Built.set _ _ _ [0x61] .object (.append .array .null rfl) rfl)
      (.bool true) rfl
  obtain ⟨copy, h', hclone, -, -, -, hnodes, hstable⟩ :=
    @clone_separate unitLibc pairHeap 3 3 _ hrep (.inl hbuilt) (by decide)
  refine ⟨copy, h', hclone, hstable copy (.inr rfl) {3} [.destroy 3] ?_ ?_⟩
  · rintro r rfl
    exact hnodes
  · exact forall_mem_singleton.mpr (.inl ⟨3, rfl, .root 3⟩)

end Mcpkit.Json.NodeHeap
