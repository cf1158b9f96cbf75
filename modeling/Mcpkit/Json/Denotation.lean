import Mcpkit.Json.Acceptance

/-!
# What the strings of a text denote

The value a text denotes when strings are sequences of scalar values, `U+0000` included, against the
tree the parser returns; of two members with the same key the later one counts.  The parser keeps
strings NUL-terminated, so the trees agree exactly when no denoted string contains `U+0000`.
-/

namespace Mcpkit.Json

open Option JString Assoc Utf8

open JsonText (Elem StringBody denote Tree)

/-- A JSON value over sequences of scalar values. -/
inductive Denoted where
  | null
  | bool (b : Bool)
  | number (literal : Bytes)
  | string (chars : List Char)
  | array (items : List Denoted)
  | object (members : List (List Char × Denoted))

mutual

/-- The value a tree denotes, if its surrogates are in pairs. -/
def denoteTree : Tree → Option Denoted
  | .null => some .null
  | .bool b => some (.bool b)
  | .number literal => some (.number literal)
  | .string body => (denote body).map Denoted.string
  | .array items => (denoteItems items).map Denoted.array
  | .object members => (denoteMembers members []).map Denoted.object

def denoteItems : List Tree → Option (List Denoted)
  | [] => some []
  | t :: ts => do
    let d ← denoteTree t
    let ds ← denoteItems ts
    return d :: ds

def denoteMembers :
    List (List Elem × Tree) → List (List Char × Denoted) → Option (List (List Char × Denoted))
  | [], members => some members
  | (key, t) :: ms, members => do
    let cs ← denote key
    let d ← denoteTree t
    denoteMembers ms (set members cs d)

end

namespace Denoted

mutual

/-- No key and no string value contains `U+0000`. -/
def NulFree : Denoted → Prop
  | string chars => '\x00' ∉ chars
  | array items => NulFreeItems items
  | object members => NulFreeMembers members
  | _ => True

def NulFreeItems : List Denoted → Prop
  | [] => True
  | d :: ds => NulFree d ∧ NulFreeItems ds

def NulFreeMembers : List (List Char × Denoted) → Prop
  | [] => True
  | (key, d) :: ms => '\x00' ∉ key ∧ NulFree d ∧ NulFreeMembers ms

end

end Denoted

variable {members : MemberList}

section

variable [Libc]

mutual

/-- The tree holds the encodings of the denoted strings, member by member. -/
def Agrees : JsonValue → Denoted → Prop
  | .null, .null => True
  | .bool b, .bool b' => b = b'
  | .number d, .number literal => d.val = (Libc.strtod literal).1
  | .string s, .string chars => s.bytes = encode chars
  | .array items, .array ds => AgreesItems items ds
  | .object members, .object ds => AgreesMembers members ds
  | _, _ => False

def AgreesItems : List JsonValue → List Denoted → Prop
  | [], [] => True
  | v :: vs, d :: ds => Agrees v d ∧ AgreesItems vs ds
  | _, _ => False

def AgreesMembers : MemberList → List (List Char × Denoted) → Prop
  | [], [] => True
  | (k, v) :: ms, (key, d) :: ds => k.bytes = encode key ∧ Agrees v d ∧ AgreesMembers ms ds
  | _, _ => False

end

variable {cs : List Char} {ds : List (List Char × Denoted)}

omit [Libc] in
private theorem nul_notMem_of_bytes {s : JString} (h : s.bytes = encode cs) : '\x00' ∉ cs := by
  rw [← zero_mem_encode, ← h]
  exact s.noNul

mutual

/-- Buffers hold no NUL, so a tree can only agree with a value that has none. -/
theorem Agrees.nulFree : ∀ {v : JsonValue} {d : Denoted}, Agrees v d → d.NulFree
  | .string _, .string _, h => nul_notMem_of_bytes h
  | .array _, .array _, h => AgreesItems.nulFree h
  | .object _, .object _, h => AgreesMembers.nulFree h
  | _, .null, _ => trivial
  | _, .bool _, _ => trivial
  | _, .number _, _ => trivial

theorem AgreesItems.nulFree :
    ∀ {vs : List JsonValue} {ds : List Denoted}, AgreesItems vs ds → Denoted.NulFreeItems ds
  | [], [], _ => trivial
  | _ :: _, _ :: _, h => ⟨Agrees.nulFree h.1, AgreesItems.nulFree h.2⟩

theorem AgreesMembers.nulFree : ∀ {ms : MemberList}
    {ds : List (List Char × Denoted)}, AgreesMembers ms ds → Denoted.NulFreeMembers ds
  | [], [], _ => trivial
  | (_, _) :: _, (_, _) :: _, h =>
    ⟨nul_notMem_of_bytes h.1, Agrees.nulFree h.2.1, AgreesMembers.nulFree h.2.2⟩

end

/-- A member of the tree and a denoted member: the keys agree, and so do the
values unless a later member with the same key has to replace them. -/
private def MemberMatches (p : JString × JsonValue) (q : List Char × Denoted) : Prop :=
  p.1.bytes = encode q.1 ∧ (q.2.NulFree → Agrees p.2 q.2)

omit [Libc] in
private theorem ofChars_bytes (h : '\x00' ∉ cs) : (ofChars cs).bytes = encode cs :=
  cString_of_notMem (fun hmem => h (zero_mem_encode.mp hmem))

private theorem memberMatches_set (h : List.Forall₂ MemberMatches members ds) (hcs : '\x00' ∉ cs)
    {v : JsonValue} {d : Denoted} (hv : d.NulFree → Agrees v d) :
    List.Forall₂ MemberMatches (set members (ofChars cs) v) (set ds cs d) := by
  refine forall₂_set h ?_ ?_ ⟨ofChars_bytes hcs, hv⟩
  · intro p q hpq
    constructor
    · intro hp
      refine encode_injective ?_
      rw [← hpq.1, hp, ofChars_bytes hcs]
    · intro hq
      refine ext ?_
      rw [hpq.1, hq, ofChars_bytes hcs]
  · intro p q hpq _
    exact ⟨hpq.1, hv⟩

private theorem agreesMembers_of_matches (h : List.Forall₂ MemberMatches members ds)
    (hds : Denoted.NulFreeMembers ds) : AgreesMembers members ds := by
  induction h with
  | nil => trivial
  | @cons p q _ _ hpq _ ih => exact ⟨hpq.1, hpq.2 hds.2.1, ih hds.2.2⟩

omit [Libc] in
private theorem nul_notMem_keys (h : Denoted.NulFreeMembers ds) :
    ∀ key ∈ keys ds, '\x00' ∉ key := by
  induction ds with
  | nil => simp
  | cons q ds ih =>
    simp only [keys_cons, List.forall_mem_cons]
    exact ⟨h.1, ih h.2.2⟩

mutual

theorem denoteTree_of_build {depth : Nat} {t : Tree} {v : JsonValue}
    (h : build depth t = some v) :
    ∃ d, denoteTree t = some d ∧ (d.NulFree → Agrees v d) := by
  cases t with
  | null | bool b =>
    cases h
    exact ⟨_, rfl, fun _ => by trivial⟩
  | number literal =>
    simp only [build] at h
    split at h
    · obtain ⟨hd, hv⟩ := dite_none_right_eq_some.mp h
      cases hv
      exact ⟨_, rfl, fun _ => rfl⟩
    · cases h
  | string body =>
    obtain ⟨cs, hcs, rfl⟩ := map_eq_some_iff.mp h
    exact ⟨.string cs, by rw [denoteTree, hcs]; rfl, fun hnul => ofChars_bytes hnul⟩
  | array items =>
    simp only [build] at h
    split at h
    · cases h
    · obtain ⟨vs, hvs, rfl⟩ := map_eq_some_iff.mp h
      obtain ⟨ds, hds, hagree⟩ := denoteItems_of_build hvs
      exact ⟨.array ds, by rw [denoteTree, hds]; rfl, hagree⟩
  | object ms =>
    simp only [build] at h
    split at h
    · cases h
    obtain ⟨all, hall, rfl⟩ := map_eq_some_iff.mp h
    obtain ⟨ds, hds, -, hmatch⟩ := denoteMembers_of_build hall []
    refine ⟨.object ds, by rw [denoteTree, hds]; rfl, fun hnul => ?_⟩
    exact agreesMembers_of_matches (hmatch .nil (nul_notMem_keys hnul)) hnul

theorem denoteItems_of_build {depth : Nat} {ts : List Tree} {vs : List JsonValue}
    (h : buildItems depth ts = some vs) :
    ∃ ds, denoteItems ts = some ds ∧ (Denoted.NulFreeItems ds → AgreesItems vs ds) := by
  cases ts with
  | nil =>
    cases h
    exact ⟨_, rfl, fun _ => trivial⟩
  | cons t ts =>
    simp only [buildItems, bind_eq_bind, bind_eq_some_iff, pure_def,
      some.injEq] at h
    obtain ⟨v, hv, vs, hvs, rfl⟩ := h
    obtain ⟨d, hd, hagree⟩ := denoteTree_of_build hv
    obtain ⟨ds, hds, hagrees⟩ := denoteItems_of_build hvs
    exact ⟨d :: ds, by simp [denoteItems, hd, hds], fun hnul => ⟨hagree hnul.1, hagrees hnul.2⟩⟩

/-- Every key set on the way is a key of the result, so if these have no `U+0000`
each step sets corresponding keys. -/
theorem denoteMembers_of_build {depth : Nat} {ms : List (List Elem × Tree)}
    {members all : MemberList} (h : buildMembers depth ms members = some all)
    (before : List (List Char × Denoted)) :
    ∃ ds, denoteMembers ms before = some ds ∧
      (∀ key ∈ keys before, key ∈ keys ds) ∧
      (List.Forall₂ MemberMatches members before →
        (∀ key ∈ keys ds, '\x00' ∉ key) → List.Forall₂ MemberMatches all ds) := by
  cases ms with
  | nil =>
    cases h
    exact ⟨before, rfl, fun _ hkey => hkey, fun hmatch _ => hmatch⟩
  | cons m ms =>
    obtain ⟨key, t⟩ := m
    simp only [buildMembers, bind_eq_bind, bind_eq_some_iff] at h
    obtain ⟨cs, hcs, v, hv, h⟩ := h
    obtain ⟨d, hd, hagree⟩ := denoteTree_of_build hv
    obtain ⟨ds, hds, hkeys, hmatch⟩ := denoteMembers_of_build h (set before cs d)
    refine ⟨ds, by simp [denoteMembers, hcs, hd, hds], ?_, ?_⟩
    · intro key hkey
      exact hkeys key (mem_keys_set.mpr (.inr hkey))
    · intro hbefore hnul
      have hmem : cs ∈ keys ds := hkeys cs (mem_keys_set.mpr (.inl rfl))
      exact hmatch (memberMatches_set hbefore (hnul cs hmem) hagree) hnul

end

/-- The tree of an accepted text holds the denoted strings, and keeps different keys apart, exactly
when no key and no string value of the denoted tree contains `U+0000`. -/
theorem agrees_iff_nulFree {text : Bytes} {v : JsonValue} (h : builtinParse text = some v) :
    (∃ t, JsonText.Text text t) ∧ ∀ t, JsonText.Text text t →
      ∃ d, denoteTree t = some d ∧ (Agrees v d ↔ d.NulFree) := by
  obtain ⟨hvalid, ht⟩ := builtinParse_sound h
  refine ⟨ht, ?_⟩
  intro t ht
  rw [builtinParse_text hvalid ht] at h
  obtain ⟨d, hd, hagree⟩ := denoteTree_of_build h
  exact ⟨d, hd, Agrees.nulFree, hagree⟩

end

/-- The text `["a"]` is returned as it is denoted. -/
theorem agrees_array_a :
    (∃ t, JsonText.Text [0x5B, 0x22, 0x61, 0x22, 0x5D] t) ∧
      ∀ t, JsonText.Text [0x5B, 0x22, 0x61, 0x22, 0x5D] t → ∃ d, denoteTree t = some d ∧
        (@Agrees unitLibc (.array [.string (lit "a")]) d ↔ d.NulFree) :=
  @agrees_iff_nulFree unitLibc _ _ (by decide +kernel)

/-- The text `{"a":"x\u0000","a\u0000":null}`: its two members have different keys, but
the parser returns one member. -/
private def nulMembersText : Bytes :=
  [0x7B, 0x22, 0x61, 0x22, 0x3A, 0x22, 0x78, 0x5C, 0x75, 0x30, 0x30, 0x30, 0x30, 0x22, 0x2C,
    0x22, 0x61, 0x5C, 0x75, 0x30, 0x30, 0x30, 0x30, 0x22, 0x3A, 0x6E, 0x75, 0x6C, 0x6C, 0x7D]

theorem nul_key_merges :
    @builtinParse unitLibc nulMembersText = some (.object [(lit "a", .null)]) ∧
      JsonText.Text nulMembersText (.object [([.raw 'a'], .string [.raw 'x', .unicode 0]),
        ([.raw 'a', .unicode 0], .null)]) ∧
      denoteTree (.object [([.raw 'a'], .string [.raw 'x', .unicode 0]),
        ([.raw 'a', .unicode 0], .null)]) =
        some (.object [(['a'], .string ['x', '\x00']), (['a', '\x00'], .null)]) ∧
      ¬@Agrees unitLibc (.object [(lit "a", .null)])
        (.object [(['a'], .string ['x', '\x00']), (['a', '\x00'], .null)]) := by
  refine ⟨by decide +kernel, ?_, rfl, ?_⟩
  · have ws : JsonText.Ws [] := by simp [JsonText.Ws]
    have nul : StringBody [0x5C, 0x75, 0x30, 0x30, 0x30, 0x30] [.unicode 0] :=
      .cons (t := []) (.unicode (x := 0) (y := 0) (z := 0) (w := 0) rfl rfl rfl rfl) .nil
    have a : StringBody [0x61] [.raw 'a'] :=
      .cons (s := [0x61]) (t := []) (.raw (c := 'a') ⟨by decide, by decide, by decide⟩) .nil
    have aNul : StringBody [0x61, 0x5C, 0x75, 0x30, 0x30, 0x30, 0x30] [.raw 'a', .unicode 0] :=
      .cons (s := [0x61]) (.raw (c := 'a') ⟨by decide, by decide, by decide⟩) nul
    have xNul : StringBody [0x78, 0x5C, 0x75, 0x30, 0x30, 0x30, 0x30] [.raw 'x', .unicode 0] :=
      .cons (s := [0x78]) (.raw (c := 'x') ⟨by decide, by decide, by decide⟩) nul
    have members := JsonText.Members.more ws a ws ws (.string xNul) ws
      (.one ws aNul ws ws .null ws)
    exact @JsonText.Text.intro [] _ [] _ ws (.object members) ws
  · rintro ⟨-, h, -⟩
    exact h

end Mcpkit.Json
