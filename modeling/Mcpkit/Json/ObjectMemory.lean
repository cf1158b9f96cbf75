import Mcpkit.Json.Value
import Mcpkit.Lib.Block
import Mcpkit.Lib.Heap

/-!
# The arrays of an object

An object of the JSON backend keeps its keys and its values in two arrays that grow one after the
other.  A `realloc` that succeeds makes a new block and retires the old one; which allocations of a
call succeed is an argument of the call.  A value is one cell, with all that it owns.  The functions
have no result where the C program would use a dead block or read a cell that was never written.

When the second `realloc` fails, the object gets its old array of keys back, which the first one has
retired.
-/

namespace Mcpkit.Json.ObjectMemory

open List JString Option Nat Prod Assoc
open Option (bind_eq_bind bind_some)

inductive Cell where
  | pointers (b : Block Nat)
  | text (s : JString)
  | value (v : JsonValue)

abbrev Memory := Heap Cell

structure Object where
  keys : Option Nat
  vals : Option Nat
  len : Nat
  cap : Nat

def builtinObjectNew : Object := ⟨none, none, 0, 0⟩

def arrayAt (h : Memory) : Option Nat → Option (Block Nat)
  | none => some .null
  | some a =>
    match h.cells a with
    | some (.pointers b) => some b
    | _ => none

def readAt (h : Memory) (p : Option Nat) (i : Nat) : Option Nat := (arrayAt h p).bind (·.read i)

def writeAt (h : Memory) (p : Option Nat) (i x : Nat) : Option Memory := do
  let a ← p
  let b ← arrayAt h p
  let b ← b.write i x
  some (h.store a (.pointers b))

def textAt (h : Memory) (a : Nat) : Option JString :=
  match h.cells a with
  | some (.text s) => some s
  | _ => none

def valueAt (h : Memory) (a : Nat) : Option JsonValue :=
  match h.cells a with
  | some (.value v) => some v
  | _ => none

/-- `xfree` of a pointer that is not `NULL`. -/
def release (h : Memory) (a : Nat) : Option Memory :=
  if (h.cells a).isSome then some (h.free a) else none

def releaseArray (h : Memory) : Option Nat → Option Memory
  | none => some h
  | some a => release h a

def xrealloc (ok : Bool) (h : Memory) (p : Option Nat) (n : Nat) :
    Option (Option Nat × Memory) := do
  let b ← arrayAt h p
  if ok then
    let h' ← releaseArray (h.alloc (.pointers (b.resize n))).2 p
    some (some h.next, h')
  else some (none, h)

/-- The loop over the keys, with `left` rounds to go. -/
def findFrom (h : Memory) (obj : Object) (key : JString) : Nat → Nat → Option (Option Nat)
  | 0, _ => some none
  | left + 1, i => do
    let a ← readAt h obj.keys i
    let s ← textAt h a
    if s = key then some (some i) else findFrom h obj key left (i + 1)

def grownCap (cap : Nat) : Nat := if cap ≠ 0 then cap * 2 else 4

def grow (succeeds : Nat → Bool) (h : Memory) (obj : Object) :
    Option (Status × Memory × Object) := do
  let (nkeys, h) ← xrealloc (succeeds 0) h obj.keys (grownCap obj.cap)
  match nkeys with
  | none => some (.noMem, h, obj)
  | some nkeys => do
    let (nvals, h) ← xrealloc (succeeds 1) h obj.vals (grownCap obj.cap)
    match nvals with
    | none => do
      -- `obj->u.object.keys = old_keys`
      let h ← release h nkeys
      some (.noMem, h, obj)
    | some nvals =>
      some (.ok, h, { obj with keys := some nkeys, vals := some nvals, cap := grownCap obj.cap })

/-- The new member behind the others. -/
def addMember (ok : Bool) (h : Memory) (obj : Object) (key : JString) (val : Nat) :
    Option (Status × Memory × Object) :=
  if ok then do
    let kcopy := h.next
    let h ← writeAt (h.alloc (.text key)).2 obj.keys obj.len kcopy
    let h ← writeAt h obj.vals obj.len val
    some (.ok, h, { obj with len := obj.len + 1 })
  else some (.noMem, h, obj)

/-- `builtin_object_set`; the `n`-th allocation of the call succeeds if `succeeds n` says so. -/
def builtinObjectSet (succeeds : Nat → Bool) (h : Memory) (obj : Object) (key : Bytes) (val : Nat) :
    Option (Status × Memory × Object) :=
  match ofBuffer key with
  | none => some (.invalidArgument, h, obj)
  | some k => do
    match ← findFrom h obj k obj.len 0 with
    | some i =>
      let old ← readAt h obj.vals i
      let h ← release h old
      let h ← writeAt h obj.vals i val
      some (.ok, h, obj)
    | none =>
      if obj.len = obj.cap then
        let (status, h, obj) ← grow succeeds h obj
        if status = .ok then addMember (succeeds 2) h obj k val else some (status, h, obj)
      else addMember (succeeds 0) h obj k val

def builtinObjectGet (h : Memory) (obj : Object) (key : Bytes) : Option (Option Nat) :=
  match ofBuffer key with
  | none => some none
  | some k => do
    match ← findFrom h obj k obj.len 0 with
    | some i =>
      let val ← readAt h obj.vals i
      some (some val)
    | none => some none

def builtinObjectKeyAt (h : Memory) (obj : Object) (i : Nat) : Option (Option JString) :=
  if i < obj.len then do
    let a ← readAt h obj.keys i
    let s ← textAt h a
    some (some s)
  else some none

/-- The loop of `builtin_destroy` over the members, with `left` rounds to go. -/
def destroyFrom (obj : Object) : Nat → Nat → Memory → Option Memory
  | 0, _, h => some h
  | left + 1, i, h => do
    let a ← readAt h obj.keys i
    let h ← release h a
    let v ← readAt h obj.vals i
    let h ← release h v
    destroyFrom obj left (i + 1) h

def builtinDestroy (h : Memory) (obj : Object) : Option Memory := do
  let h ← destroyFrom obj obj.len 0 h
  let h ← releaseArray h obj.keys
  releaseArray h obj.vals

/-- The members from `i` on, if everything the object refers to is alive. -/
def membersFrom (h : Memory) (obj : Object) : Nat → Nat → Option (List (JString × Nat))
  | 0, _ => some []
  | left + 1, i => do
    let a ← readAt h obj.keys i
    let s ← textAt h a
    let val ← readAt h obj.vals i
    let _ ← valueAt h val
    let rest ← membersFrom h obj left (i + 1)
    some ((s, val) :: rest)

def members (h : Memory) (obj : Object) : Option (List (JString × Nat)) := do
  let keys ← arrayAt h obj.keys
  let vals ← arrayAt h obj.vals
  if obj.len ≤ keys.size ∧ obj.len ≤ vals.size then membersFrom h obj obj.len 0 else none

/-- The pointer points to an array of `cap` cells, of which the first hold the elements of `l`. -/
def Stores (h : Memory) (p : Option Nat) (cap : Nat) (l : List Nat) : Prop :=
  ∃ b, arrayAt h p = some b ∧ b.size = cap ∧ b.Holds 0 l

def KeepsData (h h' : Memory) : Prop :=
  (∀ a s, h.cells a = some (.text s) → h'.cells a = some (.text s)) ∧
    ∀ a v, h.cells a = some (.value v) → h'.cells a = some (.value v)

theorem KeepsData.refl (h : Memory) : KeepsData h h := ⟨fun _ _ ha => ha, fun _ _ ha => ha⟩

section

variable {h h' h'' : Memory} {p : Option Nat} {cap n i a x : Nat} {l l₁ l₂ : List Nat}

theorem KeepsData.trans (h₁ : KeepsData h h') (h₂ : KeepsData h' h'') : KeepsData h h'' :=
  ⟨fun a s ha => h₂.1 a s (h₁.1 a s ha), fun a v ha => h₂.2 a v (h₁.2 a v ha)⟩

theorem arrayAt_eq_some {b : Block Nat} :
    arrayAt h (some a) = some b ↔ h.cells a = some (.pointers b) := by
  rw [arrayAt]
  split <;> simp_all

theorem keepsData_of_ne (harray : arrayAt h (some a) ≠ none)
    (hsame : ∀ b, b ≠ a → b < h.next → h'.cells b = h.cells b) : KeepsData h h' := by
  obtain ⟨b, hb⟩ := ne_none_iff_exists'.mp harray
  rw [arrayAt_eq_some] at hb
  refine ⟨fun c s hc => ?_, fun c v hc => ?_⟩
  all_goals
    have hne : c ≠ a := by
      rintro rfl
      rw [hb] at hc
      cases hc
    rw [hsame c hne (Heap.lt_next hc), hc]

theorem keepsData_of_lt (hsame : ∀ b, b < h.next → h'.cells b = h.cells b) : KeepsData h h' :=
  ⟨fun c _ hc => (hsame c (Heap.lt_next hc)).trans hc,
    fun c _ hc => (hsame c (Heap.lt_next hc)).trans hc⟩

theorem Stores.lt_next (hs : Stores h (some a) cap l) : a < h.next := by
  obtain ⟨b, hb, -⟩ := hs
  exact Heap.lt_next (arrayAt_eq_some.mp hb)

theorem Stores.frame (hs : Stores h p cap l) (hsame : ∀ a, p = some a → h'.cells a = h.cells a) :
    Stores h' p cap l := by
  obtain ⟨b, hb, hsize, hholds⟩ := hs
  refine ⟨b, ?_, hsize, hholds⟩
  cases p with
  | none => exact hb
  | some a => rwa [arrayAt_eq_some, hsame a rfl, ← arrayAt_eq_some]

theorem Stores.read (hs : Stores h p cap l) (hx : l[i]? = some x) : readAt h p i = some x := by
  obtain ⟨b, hb, -, hholds⟩ := hs
  rw [readAt, hb]
  exact hholds.read_eq hx

theorem exists_writeAt {b b' : Block Nat} (hb : arrayAt h p = some b)
    (hwrite : b.write i x = some b') :
    ∃ h', writeAt h p i x = some h' ∧ arrayAt h' p = some b' ∧ h'.next = h.next ∧
      KeepsData h h' ∧ ∀ c, p ≠ some c → h'.cells c = h.cells c := by
  cases p with
  | none =>
    cases hb
    simp [Block.write] at hwrite
  | some a =>
    have hlt := Heap.lt_next (arrayAt_eq_some.mp hb)
    have hsame : ∀ c, c ≠ a → (h.store a (.pointers b')).cells c = h.cells c :=
      fun c hc => h.cells_store_of_ne hc _
    refine ⟨h.store a (.pointers b'), ?_, ?_, rfl, ?_, ?_⟩
    · simp [writeAt, hb, hwrite]
    · exact arrayAt_eq_some.mpr (h.cells_store_self hlt _)
    · exact keepsData_of_ne (by simp [hb]) fun c hc _ => hsame c hc
    · exact fun c hc => hsame c fun hca => hc (hca ▸ rfl)

theorem Stores.push (hs : Stores h p cap l) (hlt : l.length < cap) (x : Nat) :
    ∃ h', writeAt h p l.length x = some h' ∧ Stores h' p cap (l ++ [x]) ∧ h'.next = h.next ∧
      KeepsData h h' ∧ ∀ c, p ≠ some c → h'.cells c = h.cells c := by
  obtain ⟨b, hb, rfl, hholds⟩ := hs
  obtain ⟨b', hwrite⟩ := Block.exists_write hlt x
  obtain ⟨h', hw, hb', hsame⟩ := exists_writeAt hb hwrite
  refine ⟨h', hw, ⟨b', hb', Block.size_write hwrite, ?_⟩, hsame⟩
  exact hholds.write_append (by rwa [zero_add])

theorem Stores.replace {y : Nat} (hs : Stores h p cap (l₁ ++ y :: l₂)) (x : Nat) :
    ∃ h', writeAt h p l₁.length x = some h' ∧ Stores h' p cap (l₁ ++ x :: l₂) ∧
      KeepsData h h' ∧ ∀ c, p ≠ some c → h'.cells c = h.cells c := by
  obtain ⟨b, hb, rfl, hholds⟩ := hs
  obtain ⟨b', hwrite, hsize, hholds'⟩ := Block.exists_replace hholds x
  obtain ⟨h', hw, hb', -, hsame⟩ := exists_writeAt hb hwrite
  exact ⟨h', hw, ⟨b', hb', hsize, hholds'⟩, hsame⟩

theorem release_eq {c : Cell} (hcell : h.cells a = some c) : release h a = some (h.free a) := by
  rw [release, hcell]
  rfl

theorem Stores.releaseArray (hs : Stores h p cap l) :
    ∃ h', releaseArray h p = some h' ∧ h'.next = h.next ∧ KeepsData h h' ∧
      (∀ a, p = some a → h'.cells a = none) ∧ ∀ c, p ≠ some c → h'.cells c = h.cells c := by
  cases p with
  | none => exact ⟨h, rfl, rfl, .refl h, by simp, fun _ _ => rfl⟩
  | some a =>
    obtain ⟨b, hb, -⟩ := hs
    refine ⟨h.free a, release_eq (arrayAt_eq_some.mp hb), rfl, ?_, ?_, fun c hc => ?_⟩
    · exact keepsData_of_ne (by simp [hb]) fun c hc _ => h.cells_free_of_ne hc
    · rintro c ⟨⟩
      exact h.cells_free_self _
    · exact h.cells_free_of_ne fun hca => hc (hca ▸ rfl)

theorem Stores.xrealloc_ok (hs : Stores h p cap l) (hn : cap ≤ n) :
    ∃ h', xrealloc true h p n = some (some h.next, h') ∧ Stores h' (some h.next) n l ∧
      h'.next = h.next + 1 ∧ KeepsData h h' ∧ (∀ a, p = some a → h'.cells a = none) ∧
      ∀ c, p ≠ some c → c < h.next → h'.cells c = h.cells c := by
  have ⟨b, hb, hsize, hholds⟩ := hs
  have hs' : Stores (h.alloc (.pointers (b.resize n))).2 p cap l :=
    hs.frame fun a ha => h.cells_alloc_of_lt (Stores.lt_next (ha ▸ hs)) _
  obtain ⟨h', hrelease, hnext, hkeep, hdead, hsame⟩ := hs'.releaseArray
  have hkeep' := (keepsData_of_lt fun c hc => h.cells_alloc_of_lt hc _).trans hkeep
  have hne : p ≠ some h.next := fun hp => lt_irrefl _ (Stores.lt_next (hp ▸ hs))
  refine ⟨h', by simp [xrealloc, hb, hrelease], ⟨b.resize n, ?_, ?_, hholds.resize (hsize ▸ hn)⟩,
    hnext, hkeep', hdead, fun c hc hlt => (hsame c hc).trans (h.cells_alloc_of_lt hlt _)⟩
  · rw [arrayAt_eq_some, hsame _ hne, h.cells_alloc_next]
  · exact Block.size_resize (hsize ▸ hn)

theorem Stores.xrealloc_fails (hs : Stores h p cap l) (n : Nat) :
    xrealloc false h p n = some (none, h) := by
  obtain ⟨b, hb, -⟩ := hs
  rw [xrealloc, hb]
  rfl

end

/-- Every member has its own copy of its key and its own value. -/
structure Contents (h : Memory) (texts : List Nat) (ms : List (JString × Nat)) : Prop where
  names : List.Forall₂ (fun a k => h.cells a = some (.text k)) texts (keys ms)
  values : ∀ m ∈ ms, ∃ v, h.cells m.2 = some (.value v)
  textsNodup : texts.Nodup
  valuesNodup : (ms.map snd).Nodup

/-- The object has the members `ms`, with copies of their keys at `texts`. -/
structure Layout (h : Memory) (obj : Object) (texts : List Nat) (ms : List (JString × Nat)) :
    Prop extends Contents h texts ms where
  len : obj.len = ms.length
  le : obj.len ≤ obj.cap
  keys : Stores h obj.keys obj.cap texts
  vals : Stores h obj.vals obj.cap (ms.map snd)
  null : obj.cap = 0 → obj.keys = none ∧ obj.vals = none
  apart : ∀ a, obj.keys = some a → obj.vals ≠ some a

variable {after : List (JString × Nat)}

section

variable {h h' : Memory} {obj : Object} {texts : List Nat} {ms : List (JString × Nat)}
  {succeeds : Nat → Bool} {val : Nat} {v : JsonValue}

theorem Contents.length (hc : Contents h texts ms) : texts.length = ms.length := by
  rw [hc.names.length_eq, Assoc.keys, length_map]

variable {a cap : Nat} {m : JString × Nat} {before : List (JString × Nat)}

theorem Contents.exists_text (hc : Contents h texts ms) (ha : a ∈ texts) :
    ∃ k, h.cells a = some (.text k) := by
  obtain ⟨i, hi, rfl⟩ := getElem_of_mem ha
  exact ⟨_, hc.names.get hi (hc.names.length_eq ▸ hi)⟩

theorem Contents.exists_value (hc : Contents h texts ms) (ha : a ∈ ms.map snd) :
    ∃ v, h.cells a = some (.value v) := by
  obtain ⟨m, hm, rfl⟩ := mem_map.mp ha
  exact hc.values m hm

theorem Contents.frame (hc : Contents h texts ms) (hkeeps : KeepsData h h') :
    Contents h' texts ms where
  names := hc.names.imp fun a k ha => hkeeps.1 a k ha
  values := fun m hm => by
    obtain ⟨v, hv⟩ := hc.values m hm
    exact ⟨v, hkeeps.2 m.2 v hv⟩
  textsNodup := hc.textsNodup
  valuesNodup := hc.valuesNodup

theorem grownCap_pos (cap : Nat) : cap < grownCap cap := by
  rw [grownCap]
  split <;> omega

section

variable (hl : Layout h obj texts ms)
include hl

theorem Layout.frame (hsame : ∀ a, a < h.next → h'.cells a = h.cells a) : Layout h' obj texts ms :=
  { hl with
    toContents := hl.toContents.frame (keepsData_of_lt hsame)
    keys := hl.keys.frame fun a ha => hsame a (Stores.lt_next (ha ▸ hl.keys))
    vals := hl.vals.frame fun a ha => hsame a (Stores.lt_next (ha ▸ hl.vals)) }

variable {i : Nat} {rest : List (JString × Nat)}

theorem Layout.readKey (hm : ms[i]? = some m) :
    ∃ a, readAt h obj.keys i = some a ∧ textAt h a = some m.1 := by
  have hk : (Assoc.keys ms)[i]? = some m.1 := by rw [Assoc.keys, getElem?_map, hm]; rfl
  obtain ⟨hi, hget⟩ := List.getElem?_eq_some_iff.mp hk
  have hi' : i < texts.length := hl.names.length_eq ▸ hi
  refine ⟨texts[i], hl.keys.read (getElem?_eq_getElem hi'), ?_⟩
  have htext : h.cells texts[i] = some (.text (Assoc.keys ms)[i]) := hl.names.get hi' hi
  rw [textAt, htext, ← hget]

theorem Layout.readVal (hm : ms[i]? = some m) : readAt h obj.vals i = some m.2 :=
  hl.vals.read (by rw [getElem?_map, hm]; rfl)

theorem Layout.findFrom_cases (k : JString) (hms : ms = before ++ rest) :
    (k ∉ Assoc.keys rest ∧ findFrom h obj k rest.length before.length = some none) ∨
      ∃ b old a, rest = b ++ (k, old) :: a ∧ k ∉ Assoc.keys b ∧
        findFrom h obj k rest.length before.length = some (some (before ++ b).length) := by
  induction rest generalizing before with
  | nil => exact .inl ⟨not_mem_nil, rfl⟩
  | cons m rest ih =>
    obtain ⟨a, hread, htext⟩ := hl.readKey (i := before.length) (m := m) (by simp [hms])
    rw [length_cons, findFrom, hread]
    simp only [bind_eq_bind, bind_some, htext]
    by_cases hk : m.1 = k
    · refine .inr ⟨[], m.2, rest, ?_, not_mem_nil, ?_⟩
      · rw [← hk, nil_append]
      · rw [if_pos hk, append_nil]
    have hms' : ms = (before ++ [m]) ++ rest := by rw [hms, append_assoc]; rfl
    have hnext : before.length + 1 = (before ++ [m]).length := by simp
    rw [if_neg hk, hnext]
    obtain ⟨hnone, hfind⟩ | ⟨b, old, c, rfl, hb, hfind⟩ := ih hms'
    · refine .inl ⟨?_, hfind⟩
      rw [Assoc.keys_cons, mem_cons, not_or]
      exact ⟨Ne.symm hk, hnone⟩
    refine .inr ⟨m :: b, old, c, rfl, ?_, ?_⟩
    · rw [Assoc.keys_cons, mem_cons, not_or]
      exact ⟨Ne.symm hk, hb⟩
    · rw [hfind, append_assoc]
      rfl

theorem Layout.membersFrom_eq (hms : ms = before ++ rest) :
    membersFrom h obj rest.length before.length = some rest := by
  induction rest generalizing before with
  | nil => rfl
  | cons m rest ih =>
    have hm : ms[before.length]? = some m := by simp [hms]
    obtain ⟨a, hread, htext⟩ := hl.readKey hm
    obtain ⟨v, hv⟩ := hl.values m (mem_of_getElem? hm)
    have hvalue : valueAt h m.2 = some v := by rw [valueAt, hv]
    have hms' : ms = (before ++ [m]) ++ rest := by rw [hms, append_assoc]; rfl
    have hrest := ih hms'
    rw [length_append, length_singleton] at hrest
    rw [length_cons, membersFrom, hread]
    simp [htext, hl.readVal hm, hvalue, hrest]

theorem Layout.members_eq : members h obj = some ms := by
  obtain ⟨keys, hkeys, hkeysSize, -⟩ := hl.keys
  obtain ⟨vals, hvals, hvalsSize, -⟩ := hl.vals
  have hall : membersFrom h obj ms.length 0 = some ms := hl.membersFrom_eq (nil_append ms).symm
  rw [members, hkeys, hvals, hl.len]
  simp only [bind_eq_bind, bind_some]
  rw [if_pos (by rw [hkeysSize, hvalsSize]; exact ⟨hl.len ▸ hl.le, hl.len ▸ hl.le⟩)]
  exact hall

theorem Layout.grow_ok (h0 : succeeds 0 = true) (h1 : succeeds 1 = true) :
    ∃ h' obj', grow succeeds h obj = some (.ok, h', obj') ∧ Layout h' obj' texts ms ∧
      obj'.len < obj'.cap ∧ KeepsData h h' := by
  have hcap := grownCap_pos obj.cap
  obtain ⟨h₁, hk, hkeys, hnext₁, hkeep₁, -, hsame₁⟩ := hl.keys.xrealloc_ok hcap.le
  have hvals : Stores h₁ obj.vals obj.cap (ms.map snd) := hl.vals.frame fun a ha =>
    hsame₁ a (fun hka => hl.apart a hka ha) (Stores.lt_next (ha ▸ hl.vals))
  obtain ⟨h₂, hv, hvals', -, hkeep₂, -, hsame₂⟩ := hvals.xrealloc_ok hcap.le
  have hkeep := hkeep₁.trans hkeep₂
  refine ⟨h₂, ⟨some h.next, some h₁.next, obj.len, grownCap obj.cap⟩, ?_, ?_, ?_, hkeep⟩
  · rw [grow, h0, hk]
    simp [h1, hv]
  · refine
      { toContents := hl.toContents.frame hkeep
        len := hl.len
        le := hl.le.trans hcap.le
        keys := ?_
        vals := hvals'
        null := fun hzero : grownCap obj.cap = 0 => absurd hcap (hzero ▸ not_lt_zero _)
        apart := ?_ }
    · refine hkeys.frame fun a ha => ?_
      cases ha
      refine hsame₂ _ (fun hval => ?_) (by omega)
      exact lt_irrefl _ (Stores.lt_next (hval ▸ hl.vals))
    · rintro a ⟨⟩ hva
      have := some.inj hva
      omega
  · exact hl.le.trans_lt hcap

theorem Layout.grow_keysFail (h0 : succeeds 0 = false) :
    grow succeeds h obj = some (.noMem, h, obj) := by
  rw [grow, h0, hl.keys.xrealloc_fails]
  rfl

theorem Layout.grow_valsFail (h0 : succeeds 0 = true) (h1 : succeeds 1 = false) :
    ∃ h', grow succeeds h obj = some (.noMem, h', obj) ∧ KeepsData h h' ∧
      (∀ a, obj.keys = some a → h'.cells a = none) ∧
      ∀ c, obj.keys ≠ some c → c < h.next → h'.cells c = h.cells c := by
  have hcap := grownCap_pos obj.cap
  obtain ⟨h₁, hk, ⟨b, hb, -⟩, hnext₁, hkeep₁, hdead, hsame₁⟩ := hl.keys.xrealloc_ok hcap.le
  have hvals : Stores h₁ obj.vals obj.cap (ms.map snd) := hl.vals.frame fun a ha =>
    hsame₁ a (fun hka => hl.apart a hka ha) (Stores.lt_next (ha ▸ hl.vals))
  have hcell := arrayAt_eq_some.mp hb
  refine ⟨h₁.free h.next, ?_, ?_, fun a ha => ?_, fun c hc hlt => ?_⟩
  · rw [grow, h0, hk]
    simp [h1, hvals.xrealloc_fails, release, hcell]
  · refine hkeep₁.trans (keepsData_of_ne (by simp [hb]) fun c hc _ => h₁.cells_free_of_ne hc)
  · rw [h₁.cells_free_of_ne (Nat.ne_of_lt (Stores.lt_next (ha ▸ hl.keys))), hdead a ha]
  · rw [h₁.cells_free_of_ne (Nat.ne_of_lt hlt), hsame₁ c hc hlt]

theorem Layout.addMember_ok (hlt : obj.len < obj.cap) (k : JString)
    (hval : h.cells val = some (.value v)) (hfresh : val ∉ ms.map snd) :
    ∃ h' obj', addMember true h obj k val = some (.ok, h', obj') ∧
      Layout h' obj' (texts ++ [h.next]) (ms ++ [(k, val)]) := by
  have hl₁ : Layout (h.alloc (.text k)).2 obj texts ms :=
    hl.frame fun a ha => h.cells_alloc_of_lt ha _
  have hlen := hl.len
  have htexts : texts.length = obj.len := by rw [hl.length, hl.len]
  obtain ⟨h₂, hw, hkeys, hnext, hkeep₂, hsame₂⟩ := hl₁.keys.push (htexts ▸ hlt) h.next
  have hvals : Stores h₂ obj.vals obj.cap (ms.map snd) := hl₁.vals.frame fun a ha =>
    hsame₂ a fun hka => hl.apart a hka ha
  obtain ⟨h₃, hw', hvals', -, hkeep₃, hsame₃⟩ := hvals.push (by rwa [length_map, ← hlen]) val
  have hkeep := hkeep₂.trans hkeep₃
  have hnew : h₃.cells h.next = some (.text k) := hkeep.1 _ _ (h.cells_alloc_next _)
  have hc := hl₁.toContents.frame hkeep
  refine ⟨h₃, { obj with len := obj.len + 1 }, ?_, ?_⟩
  · rw [htexts] at hw
    rw [length_map, ← hlen] at hw'
    simp [addMember, hw, hw']
  refine
    { names := by
        rw [Assoc.keys, map_append]
        exact rel_append hc.names (.cons hnew .nil)
      values := ?_
      textsNodup := ?_
      valuesNodup := ?_
      len := by simp [hlen]
      le := hlt
      keys := hkeys.frame fun a ha => hsame₃ a fun hva => hl.apart a ha hva
      vals := by simpa using hvals'
      null := hl.null
      apart := hl.apart }
  · intro m hm
    obtain hm | hm := mem_append.mp hm
    · exact hc.values m hm
    · rw [mem_singleton.mp hm]
      refine ⟨v, hkeep.2 val v ?_⟩
      rw [h.cells_alloc_of_lt (Heap.lt_next hval), hval]
  · refine nodup_append_comm.mp (nodup_cons.mpr ⟨fun hmem => ?_, hl.textsNodup⟩)
    obtain ⟨k, hcell⟩ := hl.exists_text hmem
    exact lt_irrefl _ (Heap.lt_next hcell)
  · rw [map_append]
    exact nodup_append_comm.mp (nodup_cons.mpr ⟨hfresh, hl.valuesNodup⟩)

end

variable {c : Cell} {p : Option Nat} {l : List Nat} {k : JString}

theorem Contents.free (hc : Contents h texts ms) (ha : a ∉ texts) (ha' : a ∉ ms.map snd) :
    Contents (h.free a) texts ms where
  names := by
    have hne : ∀ b ∈ texts, b ≠ a := fun b hb hba => ha (hba ▸ hb)
    refine ((forall₂_and_left _ _).mpr ⟨hne, hc.names⟩).imp fun b k hb => ?_
    rw [h.cells_free_of_ne hb.1, hb.2]
  values := fun m hm => by
    obtain ⟨v, hv⟩ := hc.values m hm
    refine ⟨v, ?_⟩
    rw [h.cells_free_of_ne (fun hma : m.2 = a => ha' (hma ▸ mem_map_of_mem hm)), hv]
  textsNodup := hc.textsNodup
  valuesNodup := hc.valuesNodup

theorem Stores.free (hs : Stores h p cap l) (hcell : h.cells a = some c)
    (hc : ∀ b, c ≠ .pointers b) : Stores (h.free a) p cap l := by
  have ⟨b, hb, _⟩ := hs
  refine hs.frame fun a' ha' => h.cells_free_of_ne ?_
  rintro rfl
  rw [ha', arrayAt_eq_some, hcell] at hb
  exact hc b (some.inj hb)

theorem Contents.replace {old : Nat} (hc : Contents h texts (before ++ (k, old) :: after))
    (hval : h.cells val = some (.value v))
    (hfresh : val ∉ (before ++ (k, old) :: after).map snd) :
    Contents h texts (before ++ (k, val) :: after) ∧
      old ∉ (before ++ (k, val) :: after).map snd := by
  have hnodup := hc.valuesNodup
  simp only [map_append, map_cons, nodup_middle, nodup_cons] at hnodup hfresh ⊢
  simp only [mem_append, mem_cons, not_or] at hnodup hfresh ⊢
  obtain ⟨hbefore, hne, hafter⟩ := hfresh
  refine ⟨⟨by simpa [Assoc.keys] using hc.names, ?_, hc.textsNodup, ?_⟩, hnodup.1.1, Ne.symm hne,
    hnodup.1.2⟩
  · intro m hm
    obtain hm | hm := mem_append.mp hm
    · exact hc.values m (mem_append_left _ hm)
    · obtain rfl | hm := mem_cons.mp hm
      · exact ⟨v, hval⟩
      · exact hc.values m (mem_append_right _ (mem_cons_of_mem _ hm))
  · simp only [map_append, map_cons, nodup_middle, nodup_cons]
    exact ⟨fun hmem => (mem_append.mp hmem).elim hbefore hafter, hnodup.2⟩

/-- The member keeps its place and its key; the old value is destroyed. -/
theorem Layout.replace {old : Nat} (hl : Layout h obj texts (before ++ (k, old) :: after))
    (hval : h.cells val = some (.value v))
    (hfresh : val ∉ (before ++ (k, old) :: after).map snd) :
    ∃ h', release h old = some (h.free old) ∧
      writeAt (h.free old) obj.vals before.length val = some h' ∧
      Layout h' obj texts (before ++ (k, val) :: after) := by
  obtain ⟨w, hold⟩ := hl.values (k, old) (by simp)
  obtain ⟨hc, hgone⟩ := hl.toContents.replace hval hfresh
  have htexts : old ∉ texts := fun hmem => by
    obtain ⟨k, hk⟩ := hl.exists_text hmem
    simp [hold] at hk
  have hkeys : Stores (h.free old) obj.keys obj.cap texts :=
    hl.keys.free hold fun b hb => by cases hb
  have hvals : Stores (h.free old) obj.vals obj.cap
      (before.map snd ++ old :: after.map snd) := by
    simpa using hl.vals.free hold fun b hb => by cases hb
  obtain ⟨h', hw, hvals', hkeep, hsame⟩ := hvals.replace val
  rw [length_map] at hw
  refine ⟨h', release_eq hold, hw, ?_⟩
  exact
    { toContents := (hc.free htexts hgone).frame hkeep
      len := by simpa using hl.len
      le := hl.le
      keys := hkeys.frame fun a ha => hsame a fun hva => hl.apart a ha hva
      vals := by simpa using hvals'
      null := hl.null
      apart := hl.apart }

theorem Contents.tail (hc : Contents h (a :: texts) (m :: ms)) :
    Contents ((h.free a).free m.2) texts ms := by
  obtain ⟨htext, hnames⟩ := forall₂_cons.mp hc.names
  obtain ⟨hta, htexts⟩ := nodup_cons.mp hc.textsNodup
  obtain ⟨hvm, hvalues⟩ := nodup_cons.mp hc.valuesNodup
  obtain ⟨v, hv⟩ := hc.values m mem_cons_self
  have htail : Contents h texts ms :=
    ⟨hnames, fun m' hm => hc.values m' (mem_cons_of_mem m hm), htexts, hvalues⟩
  refine (htail.free hta fun hmem => ?_).free (fun hmem => ?_) hvm
  · obtain ⟨w, hw⟩ := htail.exists_value hmem
    simp [htext] at hw
  · obtain ⟨k, hk⟩ := htail.exists_text hmem
    simp [hv] at hk

theorem exists_destroyFrom {texts₀ : List Nat} (hc : Contents h texts ms)
    (hlen : texts₀.length = before.length) (hkeys : Stores h obj.keys cap (texts₀ ++ texts))
    (hvals : Stores h obj.vals cap ((before ++ ms).map snd)) :
    ∃ h', destroyFrom obj ms.length before.length h = some h' ∧
      Stores h' obj.keys cap (texts₀ ++ texts) ∧
      Stores h' obj.vals cap ((before ++ ms).map snd) := by
  induction ms generalizing h texts texts₀ before with
  | nil => exact ⟨h, rfl, hkeys, hvals⟩
  | cons m ms ih =>
    cases texts with
    | nil => cases hc.names
    | cons a texts =>
      have htext : h.cells a = some (.text m.1) := (forall₂_cons.mp hc.names).1
      obtain ⟨v, hv⟩ := hc.values m mem_cons_self
      have hne : m.2 ≠ a := by
        rintro heq
        simp [heq, htext] at hv
      have hv' : (h.free a).cells m.2 = some (.value v) := by rw [h.cells_free_of_ne hne, hv]
      have hkeys₁ := hkeys.free htext fun b hb => by cases hb
      have hvals₁ := hvals.free htext fun b hb => by cases hb
      have hreadKey : readAt h obj.keys before.length = some a := hkeys.read (by simp [← hlen])
      have hreadVal : readAt (h.free a) obj.vals before.length = some m.2 := hvals₁.read (by simp)
      have hkeys₂ := hkeys₁.free hv' fun b hb => by cases hb
      have hvals₂ := hvals₁.free hv' fun b hb => by cases hb
      rw [append_cons] at hkeys₂ hvals₂
      obtain ⟨h', hloop, hkeys', hvals'⟩ := ih hc.tail (by simp [hlen]) hkeys₂ hvals₂
      refine ⟨h', ?_, by rwa [append_cons], by rwa [append_cons]⟩
      rw [length_append, length_singleton] at hloop
      rw [length_cons, destroyFrom, hreadKey]
      simp [release_eq htext, hreadVal, release_eq hv', hloop]

theorem Layout.destroy (hl : Layout h obj texts ms) : (builtinDestroy h obj).isSome = true := by
  have hkeys₀ : Stores h obj.keys obj.cap ([] ++ texts) := hl.keys
  have hvals₀ : Stores h obj.vals obj.cap (([] ++ ms).map snd) := hl.vals
  obtain ⟨h₁, hloop, hkeys, hvals⟩ := exists_destroyFrom hl.toContents rfl hkeys₀ hvals₀
  obtain ⟨h₂, hk, -, -, -, hsame⟩ := hkeys.releaseArray
  have hvals₂ : Stores h₂ obj.vals obj.cap (ms.map snd) :=
    hvals.frame fun a ha => hsame a fun hka => hl.apart a hka ha
  obtain ⟨h₃, hv, -⟩ := hvals₂.releaseArray
  rw [builtinDestroy, hl.len]
  simp only [length_nil] at hloop
  simp [hloop, hk, hv]

/-- The arrays have to grow, the `realloc` of the keys succeeds and that of the values fails. -/
def LosesKeys (succeeds : Nat → Bool) (obj : Object) (ms : List (JString × Nat)) (key : Bytes) :
    Prop :=
  ∃ k, ofBuffer key = some k ∧ k ∉ keys ms ∧ obj.len = obj.cap ∧ obj.cap ≠ 0 ∧
    succeeds 0 = true ∧ succeeds 1 = false

inductive SetOutcome (succeeds : Nat → Bool) (h : Memory) (obj : Object)
    (ms : List (JString × Nat)) (key : Bytes) (val : Nat) : Status → Memory → Object → Prop
  | invalid (hkey : ofBuffer key = none) :
      SetOutcome succeeds h obj ms key val .invalidArgument h obj
  | stored {k : JString} {h' : Memory} {obj' : Object} {texts : List Nat}
      (hkey : ofBuffer key = some k) (hl : Layout h' obj' texts (set ms k val)) :
      SetOutcome succeeds h obj ms key val .ok h' obj'
  | refused {h' : Memory} {obj' : Object} {texts : List Nat} (hkeep : KeepsData h h')
      (hl : Layout h' obj' texts ms) : SetOutcome succeeds h obj ms key val .noMem h' obj'
  | lost {h' : Memory} (hlost : LosesKeys succeeds obj ms key) :
      SetOutcome succeeds h obj ms key val .noMem h' obj

section

variable (hl : Layout h obj texts ms)
include hl

theorem Layout.find_cases (k : JString) :
    (k ∉ Assoc.keys ms ∧ findFrom h obj k obj.len 0 = some none) ∨
      ∃ b old a, ms = b ++ (k, old) :: a ∧ k ∉ Assoc.keys b ∧
        findFrom h obj k obj.len 0 = some (some b.length) := by
  rw [hl.len]
  exact hl.findFrom_cases k (nil_append ms).symm

variable {key : Bytes}

theorem Layout.addMember_outcome {h₀ : Memory} {obj₀ : Object} (hkeep : KeepsData h₀ h)
    (hlt : obj.len < obj.cap) (hkey : ofBuffer key = some k) (hk : k ∉ Assoc.keys ms)
    (hval : h.cells val = some (.value v)) (hfresh : val ∉ ms.map snd) (ok : Bool) :
    ∃ status h' obj', addMember ok h obj k val = some (status, h', obj') ∧
      SetOutcome succeeds h₀ obj₀ ms key val status h' obj' := by
  cases ok with
  | true =>
    obtain ⟨h', obj', hadd, hl'⟩ := hl.addMember_ok hlt k hval hfresh
    exact ⟨.ok, h', obj', hadd, .stored hkey (by rwa [set_of_notMem hk])⟩
  | false => exact ⟨.noMem, h, obj, rfl, .refused hkeep hl⟩

theorem Layout.set_outcome (succeeds : Nat → Bool) (key : Bytes)
    (hval : h.cells val = some (.value v)) (hfresh : val ∉ ms.map snd) :
    ∃ status h' obj', builtinObjectSet succeeds h obj key val = some (status, h', obj') ∧
      SetOutcome succeeds h obj ms key val status h' obj' := by
  unfold builtinObjectSet
  cases hkey : ofBuffer key with
  | none => exact ⟨_, _, _, rfl, .invalid hkey⟩
  | some k =>
    obtain ⟨hk, hfind⟩ | ⟨b, old, a, rfl, hb, hfind⟩ := hl.find_cases k
    · simp only [hfind, bind_eq_bind, bind_some]
      by_cases hfull : obj.len = obj.cap
      · rw [if_pos hfull]
        cases h0 : succeeds 0 with
        | false =>
          rw [hl.grow_keysFail h0]
          exact ⟨.noMem, h, obj, rfl, .refused (.refl h) hl⟩
        | true =>
          cases h1 : succeeds 1 with
          | true =>
            obtain ⟨h₁, obj₁, hgrow, hl₁, hlt, hkeep⟩ := hl.grow_ok h0 h1
            rw [hgrow]
            exact hl₁.addMember_outcome hkeep hlt hkey hk (hkeep.2 val v hval) hfresh _
          | false =>
            obtain ⟨h₁, hgrow, hkeep, -, hsame⟩ := hl.grow_valsFail h0 h1
            rw [hgrow]
            refine ⟨.noMem, h₁, obj, rfl, ?_⟩
            by_cases hzero : obj.cap = 0
            · -- An object without arrays loses nothing.
              have hnull := (hl.null hzero).1
              exact .refused hkeep (hl.frame fun c hc => hsame c (by simp [hnull]) hc)
            · exact .lost ⟨k, hkey, hk, hfull, hzero, h0, h1⟩
      · rw [if_neg hfull]
        exact hl.addMember_outcome (.refl h) (lt_of_le_of_ne hl.le hfull) hkey hk hval hfresh _
    · obtain ⟨h', hrelease, hwrite, hl'⟩ := hl.replace hval hfresh
      have hread : readAt h obj.vals b.length = some old := hl.readVal (m := (k, old)) (by simp)
      simp only [hfind, bind_eq_bind, bind_some, hread, hrelease, hwrite]
      have hset : Layout h' obj texts (Assoc.set (b ++ (k, old) :: a) k val) := by
        rwa [Assoc.set_append_cons hb]
      exact ⟨.ok, h', obj, rfl, .stored hkey hset⟩

theorem Layout.outcome_of_set {status : Status} {obj' : Object}
    (hval : h.cells val = some (.value v)) (hfresh : val ∉ ms.map snd)
    (hset : builtinObjectSet succeeds h obj key val = some (status, h', obj')) :
    SetOutcome succeeds h obj ms key val status h' obj' := by
  obtain ⟨_, _, _, hset', houtcome⟩ := hl.set_outcome succeeds key hval hfresh
  rw [hset] at hset'
  cases hset'
  exact houtcome

theorem Layout.set_of_losesKeys (hlost : LosesKeys succeeds obj ms key) :
    ∃ h', builtinObjectSet succeeds h obj key val = some (.noMem, h', obj) ∧
      members h' obj = none := by
  obtain ⟨k, hkey, hk, hfull, hcap, h0, h1⟩ := hlost
  obtain ⟨h', hgrow, -, hdead, -⟩ := hl.grow_valsFail h0 h1
  obtain ⟨-, hfind⟩ | ⟨b, old, a, rfl, -⟩ := hl.find_cases k
  · refine ⟨h', ?_, ?_⟩
    · rw [builtinObjectSet, hkey]
      simp only [hfind, bind_eq_bind, bind_some, if_pos hfull, hgrow]
      rfl
    -- The array of keys is not `NULL`, for it has cells.
    cases hkeys : obj.keys with
    | none =>
      obtain ⟨b, hb, hsize, -⟩ := hl.keys
      rw [hkeys] at hb
      cases hb
      exact absurd hsize.symm hcap
    | some a => simp [members, hkeys, arrayAt, hdead a hkeys]
  · exact absurd (by simp [Assoc.keys]) hk

end

/-- The objects that are made by `builtin_object_new` and by calls of `builtin_object_set` that do
not lose the keys, with values the object does not have yet. -/
inductive Reachable : Memory → Object → List (JString × Nat) → Prop
  | new (h : Memory) : Reachable h builtinObjectNew []
  | alloc {h : Memory} {obj : Object} {ms : List (JString × Nat)} (hr : Reachable h obj ms)
      (c : Cell) : Reachable (h.alloc c).2 obj ms
  | set {h h' : Memory} {obj obj' : Object} {ms : List (JString × Nat)} {succeeds : Nat → Bool}
      {key : Bytes} {k : JString} {val : Nat} {v : JsonValue} (hr : Reachable h obj ms)
      (hval : h.cells val = some (.value v)) (hfresh : val ∉ ms.map snd)
      (hkey : ofBuffer key = some k)
      (hset : builtinObjectSet succeeds h obj key val = some (.ok, h', obj')) :
      Reachable h' obj' (set ms k val)
  | fail {h h' : Memory} {obj obj' : Object} {ms : List (JString × Nat)} {succeeds : Nat → Bool}
      {key : Bytes} {val : Nat} {v : JsonValue} {status : Status} (hr : Reachable h obj ms)
      (hval : h.cells val = some (.value v)) (hfresh : val ∉ ms.map snd)
      (hkeys : ¬ LosesKeys succeeds obj ms key)
      (hset : builtinObjectSet succeeds h obj key val = some (status, h', obj'))
      (hstatus : status ≠ .ok) : Reachable h' obj' ms

theorem layout_new (h : Memory) : Layout h builtinObjectNew [] [] where
  names := .nil
  values := fun _ hm => by cases hm
  textsNodup := nodup_nil
  valuesNodup := nodup_nil
  len := rfl
  le := le_refl _
  keys := ⟨.null, rfl, rfl, Block.holds_nil _ _⟩
  vals := ⟨.null, rfl, rfl, Block.holds_nil _ _⟩
  null := fun _ => ⟨rfl, rfl⟩
  apart := fun _ ha => by cases ha

theorem Reachable.layout (hr : Reachable h obj ms) : ∃ texts, Layout h obj texts ms := by
  induction hr with
  | new h => exact ⟨[], layout_new h⟩
  | @alloc h obj ms hr c ih =>
    obtain ⟨texts, hl⟩ := ih
    exact ⟨texts, hl.frame fun a ha => h.cells_alloc_of_lt ha c⟩
  | @set h h' obj obj' ms succeeds key k val v hr hval hfresh hkey hset ih =>
    obtain ⟨texts, hl⟩ := ih
    cases hl.outcome_of_set hval hfresh hset with
    | @stored k' _ _ texts' hkey' hl' =>
      cases hkey.symm.trans hkey'
      exact ⟨texts', hl'⟩
  | @fail h h' obj obj' ms succeeds key val v status hr hval hfresh hkeys hset hstatus ih =>
    obtain ⟨texts, hl⟩ := ih
    cases hl.outcome_of_set hval hfresh hset with
    | invalid => exact ⟨texts, hl⟩
    | stored => exact absurd rfl hstatus
    | @refused _ _ texts' _ hl' => exact ⟨texts', hl'⟩
    | lost hlost => exact absurd hlost hkeys

/-- The object has the members `ms`, all of it is alive, and it can be read, changed and
destroyed. -/
structure Usable (h : Memory) (obj : Object) (ms : List (JString × Nat)) : Prop where
  members : members h obj = some ms
  get : ∀ key, builtinObjectGet h obj key = some ((ofBuffer key).bind fun k => ms.lookup k)
  keyAt : ∀ i, builtinObjectKeyAt h obj i = some (ms[i]?.map fst)
  set : ∀ succeeds key val, (valueAt h val).isSome = true → val ∉ ms.map snd →
    (builtinObjectSet succeeds h obj key val).isSome = true
  destroy : (builtinDestroy h obj).isSome = true

/-- The value is as it was, and the object does not refer to it. -/
structure CallerOwns (h : Memory) (obj : Object) (val : Nat) (v : JsonValue) : Prop where
  alive : valueAt h val = some v
  unshared : ∀ ms, members h obj = some ms → val ∉ ms.map snd

theorem valueAt_eq_some : valueAt h a = some v ↔ h.cells a = some (.value v) := by
  rw [valueAt]
  split <;> simp_all

theorem Layout.get_eq (hl : Layout h obj texts ms) (key : Bytes) :
    builtinObjectGet h obj key = some ((ofBuffer key).bind fun k => ms.lookup k) := by
  unfold builtinObjectGet
  cases ofBuffer key with
  | none => rfl
  | some k =>
    obtain ⟨hk, hfind⟩ | ⟨b, old, a, rfl, hb, hfind⟩ := hl.find_cases k
    · simp [hfind, Assoc.lookup_eq_none hk]
    · have hread : readAt h obj.vals b.length = some old := hl.readVal (m := (k, old)) (by simp)
      simp [hfind, hread, Assoc.lookup_append_cons hb]

theorem Layout.keyAt_eq (hl : Layout h obj texts ms) (i : Nat) :
    builtinObjectKeyAt h obj i = some (ms[i]?.map fst) := by
  unfold builtinObjectKeyAt
  by_cases hi : i < ms.length
  · obtain ⟨a, hread, htext⟩ := hl.readKey (getElem?_eq_getElem hi)
    rw [if_pos (hl.len ▸ hi), hread]
    simp [htext, getElem?_eq_getElem hi]
  · rw [if_neg (hl.len ▸ hi), getElem?_eq_none (not_lt.mp hi)]
    rfl

theorem Layout.usable (hl : Layout h obj texts ms) : Usable h obj ms where
  members := hl.members_eq
  get := hl.get_eq
  keyAt := hl.keyAt_eq
  set := fun succeeds key val hval hfresh => by
    obtain ⟨v, hv⟩ := isSome_iff_exists.mp hval
    obtain ⟨_, _, _, hset, -⟩ := hl.set_outcome succeeds key (valueAt_eq_some.mp hv) hfresh
    rw [hset]
    rfl
  destroy := hl.destroy

/-- A call for which there is no memory leaves the object and the value as they were, unless the
array of values could not grow after the array of keys had moved. -/
theorem builtinObjectSet_noMem_iff (hl : Layout h obj texts ms) (succeeds : Nat → Bool)
    (key : Bytes) (hval : h.cells val = some (.value v)) (hfresh : val ∉ ms.map snd) :
    (∀ h' obj', builtinObjectSet succeeds h obj key val = some (.noMem, h', obj') →
      Usable h' obj' ms ∧ CallerOwns h' obj' val v) ↔ ¬ LosesKeys succeeds obj ms key := by
  constructor
  · intro hintact hlost
    obtain ⟨h', hset, hdead⟩ : ∃ h', builtinObjectSet succeeds h obj key val =
      some (.noMem, h', obj) ∧ ObjectMemory.members h' obj = none := hl.set_of_losesKeys hlost
    have hmembers := (hintact h' obj hset).1.members
    rw [hdead] at hmembers
    cases hmembers
  intro hkeys h' obj' hset
  cases hl.outcome_of_set hval hfresh hset with
  | lost hlost => exact absurd hlost hkeys
  | refused hkeep hl' =>
    refine ⟨hl'.usable, valueAt_eq_some.mpr (hkeep.2 val v hval), fun ms' hms' => ?_⟩
    rw [hl'.members_eq] at hms'
    cases hms'
    exact hfresh

/-- After any calls that do not lose the keys, with or without memory, the object reads as the
association list of the calls that succeeded, and can be changed and destroyed. -/
theorem usable_of_reachable (hr : Reachable h obj ms) : Usable h obj ms := by
  obtain ⟨texts, hl⟩ := hr.layout
  exact hl.usable

end

/-- A call of `builtin_object_set` with a value that was just made. -/
def setNew (succeeds : Nat → Bool) (r : Memory × Object) (key : Bytes) (v : JsonValue) :
    Option (Status × Memory × Object) :=
  builtinObjectSet succeeds (r.1.alloc (.value v)).2 r.2 key r.1.next

def oneMember : Memory × Object :=
  ((setNew (fun _ => true) (Heap.empty, builtinObjectNew) [0x61] .null).get rfl).2

theorem reachable_oneMember : Reachable oneMember.1 oneMember.2 [(lit "a", 0)] :=
  @Reachable.set _ _ _ _ _ (fun _ => true) [0x61] _ _ .null (.alloc (.new Heap.empty) _)
    (Heap.cells_alloc_next _ _) not_mem_nil rfl rfl

theorem not_losesKeys_oneMember (succeeds : Nat → Bool) :
    ¬LosesKeys succeeds oneMember.2 [(lit "a", 0)] [0x62] := by
  rintro ⟨k, -, -, hfull, -⟩
  exact absurd hfull (by decide)

/-- There is no memory for the second member, and then there is for a third one. -/
theorem usable_of_reachable_refused :
    ∃ h obj, Usable h obj [(lit "a", 0), (lit "c", 5)] := by
  have hrefused := @Reachable.fail _ _ _ _ _ (fun _ => false) [0x62] _ .null .noMem
    (reachable_oneMember.alloc _) (Heap.cells_alloc_next _ _) (by decide)
    (not_losesKeys_oneMember _) rfl (by decide)
  exact ⟨_, _, usable_of_reachable (@Reachable.set _ _ _ _ _ (fun _ => true) [0x63] _ _ .null
    (hrefused.alloc _) (Heap.cells_alloc_next _ _) (by decide) rfl rfl)⟩

/-- The second member of an object, without memory for the copy of its key. -/
theorem builtinObjectSet_noMemory :
    ∃ h', setNew (fun _ => false) oneMember [0x62] .null = some (.noMem, h', oneMember.2) ∧
      Usable h' oneMember.2 [(lit "a", 0)] ∧ CallerOwns h' oneMember.2 4 .null := by
  obtain ⟨texts, hl⟩ := (reachable_oneMember.alloc (.value .null)).layout
  exact ⟨_, rfl, (builtinObjectSet_noMem_iff hl (fun _ => false) [0x62] (Heap.cells_alloc_next _ _)
    (by decide)).mpr (not_losesKeys_oneMember _) _ _ rfl⟩

def fourMembers : Option (Memory × Object) :=
  [[0x61], [0x62], [0x63], [0x64]].foldlM
    (fun r key => (setNew (fun _ => true) r key .null).map snd) (Heap.empty, builtinObjectNew)

/-- The fifth key, without memory for the array of values: the array of keys is dead after the
call, so that neither a look-up nor the end of the object are possible. -/
theorem builtinObjectSet_fifthKey :
    (fourMembers.bind fun r => members r.1 r.2).isSome = true ∧
      (fourMembers.bind fun r => (setNew (fun n => n != 1) r [0x65] .null).map fun q =>
        (q.1, (members q.2.1 q.2.2).isSome, (builtinObjectGet q.2.1 q.2.2 [0x61]).isSome,
          (builtinDestroy q.2.1 q.2.2).isSome)) = some (.noMem, false, false, false) := by
  decide +kernel

end Mcpkit.Json.ObjectMemory
