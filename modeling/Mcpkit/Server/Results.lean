import Mcpkit.Server.Routes

/-!
# Building results

The routes build their results member by member.  A step of such a
construction succeeds on every object and touches no members but its own, as
long as the texts it is given are valid UTF-8.  With the keys of each step named
in the statement, the members of a finished result are read off without
following the construction.
-/

namespace Mcpkit

open Json JsonValue Protocol List Option Binary64 Assoc

variable {W : Type}

/-- A text that a JSON string can hold. -/
def Json.CString.Printable (c : CString) : Prop := utf8Valid c.bytes = true

instance (c : CString) : Decidable c.Printable := inferInstanceAs (Decidable (_ = _))

def Json.CString.Printable.text {c : CString} (h : c.Printable) : JString := ⟨c.bytes, c.noNul, h⟩

variable {c : CString} {req m : Message}

theorem newString_of_printable (h : c.Printable) : newString c.bytes = some (.string h.text) :=
  newString_bytes h.text

theorem newString_of_not_printable (h : ¬c.Printable) : newString c.bytes = none := by
  rw [newString, cString_of_notMem c.noNul, newStringN, dif_neg fun hb => h hb.2]

theorem newNumber_ofNat {n : Nat} (h : n < 2 ^ 64) :
    newNumber (ofNat n) = some (.number ⟨ofNat n, isFinite_ofNat h⟩) :=
  dif_pos (isFinite_ofNat h)

theorem newNumber_uint64 (n : UInt64) :
    ∃ d, newNumber (ofNat n.toNat) = some (.number d) :=
  ⟨_, newNumber_ofNat n.toNat_lt⟩

/-- On a list, `decorate_result` is four steps of one form: the last one sets a copy, if any. -/
theorem decorateResult_list (srv : Server W) (result : JsonValue) :
    decorateResult srv result true = (do
      let result ← mcpResultInjectResultType result
      let result ← setWhen (srv.listTtlMs ≠ 0) result "ttlMs"
        (newNumber (ofNat srv.listTtlMs.toNat))
      let result ← setStringOpt result "cacheScope" srv.listCacheScope
      setOptional result "_meta" (srv.responseMeta.map clone)) := by
  unfold decorateResult
  cases srv.responseMeta <;> rfl

/-- The step succeeds on every object and touches no member but those under its keys. -/
def Extends (keys : List String) (step : JsonValue → Option JsonValue) : Prop :=
  ∀ members, ∃ members', step (.object members) = some (.object members') ∧
    ∀ k, (∀ key ∈ keys, k ≠ JString.lit key) → members'.lookup k = members.lookup k

variable {srv : Server W} {val : Option JsonValue} {v : JsonValue}

variable (key : String)

namespace Extends

variable {keys keys' : List String} {step step' : JsonValue → Option JsonValue}

theorem refl : Extends keys some := fun members => ⟨members, rfl, fun _ _ => rfl⟩

theorem mono (h : Extends keys step) (hsub : keys ⊆ keys') : Extends keys' step := by
  intro members
  obtain ⟨members', heq, hlookup⟩ := h members
  exact ⟨members', heq, fun k hk => hlookup k fun key hkey => hk key (hsub hkey)⟩

theorem bind (h : Extends keys step) (h' : Extends keys' step') :
    Extends (keys ++ keys') fun obj => step obj >>= step' := by
  intro members
  obtain ⟨members₁, heq₁, hlookup₁⟩ := h members
  obtain ⟨members₂, heq₂, hlookup₂⟩ := h' members₁
  refine ⟨members₂, by simp [heq₁, heq₂], fun k hk => ?_⟩
  rw [hlookup₂ k fun key hkey => hk key (mem_append_right _ hkey),
    hlookup₁ k fun key hkey => hk key (mem_append_left _ hkey)]

theorem setTake (val : JsonValue) : Extends [key] (·.setTake key val) := by
  intro members
  refine ⟨_, setTake_object members key val, fun k hk => ?_⟩
  exact lookup_set_of_ne members (hk key mem_cons_self) val

theorem setString (h : c.Printable) : Extends [key] (Mcpkit.setString · key c) := by
  intro members
  simp only [Mcpkit.setString, newString_of_printable h]
  exact setTake key (.string h.text) members

theorem setStringOpt {c : Option CString} (h : ∀ t ∈ c, t.Printable) :
    Extends [key] (Mcpkit.setStringOpt · key c) := by
  cases c with
  | none => exact refl
  | some t => exact setString key (h t rfl)

theorem setOptional (val : Option JsonValue) : Extends [key] (Protocol.setOptional · key val) := by
  cases val with
  | none => exact refl
  | some v => exact setTake key v

theorem setWhen (c : Bool) (key : String) (h : ∃ v, val = some v) :
    Extends [key] (Protocol.setWhen c · key val) := by
  obtain ⟨v, rfl⟩ := h
  cases c with
  | false => exact refl
  | true => exact setTake key v

theorem decorateResult (h : ∀ t ∈ srv.listCacheScope, t.Printable) (isList : Bool) :
    Extends ["resultType", "ttlMs", "cacheScope", "_meta"]
      (Mcpkit.decorateResult srv · isList) := by
  have htype : Extends ["resultType"] mcpResultInjectResultType := setTake _ _
  have httl : Extends ["ttlMs"] (Protocol.setWhen (srv.listTtlMs ≠ 0) · "ttlMs"
      (newNumber (ofNat srv.listTtlMs.toNat))) := by
    obtain ⟨d, hd⟩ := newNumber_uint64 srv.listTtlMs
    exact setWhen _ _ ⟨_, hd⟩
  have hscope : Extends ["cacheScope"] (Mcpkit.setStringOpt · "cacheScope" srv.listCacheScope) :=
    setStringOpt _ h
  cases isList with
  | false =>
    have hend : Extends [] some := refl
    exact (htype.bind hend).mono (by simp)
  | true =>
    simp only [decorateResult_list]
    exact htype.bind (httl.bind (hscope.bind (setOptional _ _)))

end Extends

/-- From every object the construction goes on to a response whose result has the same members but
for those under its keys. -/
def Responds (keys : List String) (req : Message) (f : JsonValue → Option Message) : Prop :=
  ∀ members, ∃ members', f (.object members) =
      some ((newEnvelope.set "id" (replyId req)).set "result" (.object members')) ∧
    ∀ k, (∀ key ∈ keys, k ≠ JString.lit key) → members'.lookup k = members.lookup k

theorem Responds.decorated (h : ∀ t ∈ srv.listCacheScope, t.Printable) (req : Message)
    (isList : Bool) :
    Responds ["resultType", "ttlMs", "cacheScope", "_meta"] req
      (respondDecorated srv req · isList) := by
  intro members
  obtain ⟨members', heq, hlookup⟩ := Extends.decorateResult h isList members
  dsimp only at heq
  refine ⟨members', ?_, hlookup⟩
  dsimp only
  rw [respondDecorated, heq]
  exact mcpResponseOkNew_some req (.object members')

theorem Extends.responds {keys keys' : List String} {step : JsonValue → Option JsonValue}
    {f : JsonValue → Option Message} (h : Extends keys step) (hf : Responds keys' req f) :
    Responds (keys ++ keys') req fun obj => (step obj).bind f := by
  intro members
  obtain ⟨members₁, heq₁, hlookup₁⟩ := h members
  obtain ⟨members₂, heq₂, hlookup₂⟩ := hf members₁
  refine ⟨members₂, by simp [heq₁, heq₂], fun k hk => ?_⟩
  rw [hlookup₂ k fun key hkey => hk key (mem_append_right _ hkey),
    hlookup₁ k fun key hkey => hk key (mem_append_left _ hkey)]

theorem respondDecorated_eq_none {t : CString} (ht : srv.listCacheScope = some t) (h : ¬t.Printable)
    (req : Message) (result : JsonValue) : respondDecorated srv req result true = none := by
  have hdecorate : decorateResult srv result true = none := by
    unfold decorateResult
    refine bind_eq_none_iff.mpr fun result₁ _ => ?_
    refine bind_eq_none_iff.mpr fun result₂ _ => ?_
    rw [ht, setStringOpt, setString, newString_of_not_printable h]
    rfl
  rw [respondDecorated, hdecorate]
  rfl

theorem Json.JsonValue.DistinctKeys.set {members : MemberList}
    (h : DistinctKeys (.object members)) (k : JString) (hv : v.DistinctKeys) :
    DistinctKeys (.object (set members k v)) :=
  ⟨nodup_keys_set h.1 k v, distinctKeysMembers_set h.2 k hv⟩

theorem distinctKeys_empty : DistinctKeys (.object []) := ⟨nodup_nil, trivial⟩

theorem Protocol.Message.distinctKeys_set (h : m.dom.DistinctKeys) (key : String)
    (hv : v.DistinctKeys) : (m.set key v).dom.DistinctKeys :=
  h.set key hv

theorem distinctKeys_newEnvelope : newEnvelope.dom.DistinctKeys :=
  distinctKeys_empty.set "jsonrpc" trivial

/-- The step makes objects with distinct keys of such objects. -/
def KeepsDistinct (step : JsonValue → Option JsonValue) : Prop :=
  ∀ ⦃v v'⦄, v.DistinctKeys → step v = some v' → v'.DistinctKeys

namespace KeepsDistinct

variable {step step' : JsonValue → Option JsonValue}

theorem refl : KeepsDistinct some := by
  intro v v' hv h
  cases h
  exact hv

theorem bind (h : KeepsDistinct step) (h' : KeepsDistinct step') :
    KeepsDistinct fun v => step v >>= step' := by
  intro v v' hv heq
  obtain ⟨v₁, heq₁, heq₂⟩ := bind_eq_some_iff.mp heq
  exact h' (h hv heq₁) heq₂

theorem setTake (val : JsonValue) (hval : val.DistinctKeys) :
    KeepsDistinct (·.setTake key val) := by
  intro v v' hv h
  cases v with
  | object members =>
    dsimp only at h
    rw [setTake_object] at h
    cases h
    exact hv.set _ hval
  | _ => cases h

theorem setOptional (hval : ∀ v ∈ val, v.DistinctKeys) :
    KeepsDistinct (Protocol.setOptional · key val) := by
  cases val with
  | none => exact refl
  | some v => exact setTake key v (hval v rfl)

theorem setWhen (c : Bool) (key : String) (hval : ∀ v ∈ val, v.DistinctKeys) :
    KeepsDistinct (Protocol.setWhen c · key val) := by
  cases c with
  | false => exact refl
  | true =>
    intro v v' hv h
    obtain ⟨w, hw, heq⟩ := bind_eq_some_iff.mp h
    exact setTake key w (hval w hw) hv heq

theorem setString (c : CString) : KeepsDistinct (Mcpkit.setString · key c) := by
  intro v v' hv h
  obtain ⟨w, hw, heq⟩ := bind_eq_some_iff.mp h
  obtain ⟨_, hw⟩ := dite_none_right_eq_some.mp hw
  cases hw
  exact setTake key (.string _) trivial hv heq

theorem setStringOpt (c : Option CString) : KeepsDistinct (Mcpkit.setStringOpt · key c) := by
  cases c with
  | none => exact refl
  | some t => exact setString key t

theorem copied (v : Option JsonValue) : ∀ w ∈ v.map clone, w.DistinctKeys := by
  intro w hw
  obtain ⟨v, -, rfl⟩ := map_eq_some_iff.mp hw
  exact distinctKeys_clone v

theorem decorateResult (srv : Server W) (isList : Bool) :
    KeepsDistinct (Mcpkit.decorateResult srv · isList) := by
  have htype : KeepsDistinct mcpResultInjectResultType :=
    setTake "resultType" (.string "complete") trivial
  have httl : KeepsDistinct (Protocol.setWhen (srv.listTtlMs ≠ 0) · "ttlMs"
      (newNumber (ofNat srv.listTtlMs.toNat))) := by
    refine setWhen _ _ fun v hv => ?_
    obtain ⟨d, hd⟩ := newNumber_uint64 srv.listTtlMs
    rw [hd] at hv
    cases hv
    trivial
  cases isList with
  | false => exact htype.bind refl
  | true =>
    have hmeta := setOptional "_meta" (copied srv.responseMeta)
    simp only [decorateResult_list]
    exact htype.bind (httl.bind ((setStringOpt _ _).bind hmeta))

end KeepsDistinct

theorem distinctKeys_toolEntry {t : Tool W} (h : toolEntry t = some v) : v.DistinctKeys :=
  ((KeepsDistinct.setString "name" t.name).bind <|
    (KeepsDistinct.setStringOpt "description" t.description).bind <|
    (KeepsDistinct.setOptional "inputSchema" (KeepsDistinct.copied t.schema)).bind <|
    (KeepsDistinct.setOptional "outputSchema" (KeepsDistinct.copied t.outputSchema)).bind <|
    KeepsDistinct.setOptional "_meta" (KeepsDistinct.copied t.metaObj))
    distinctKeys_empty h

theorem distinctKeysItems_iff {vs : List JsonValue} :
    DistinctKeysItems vs ↔ ∀ v ∈ vs, v.DistinctKeys := by
  induction vs with
  | nil => simp [DistinctKeysItems]
  | cons v vs ih => simp [DistinctKeysItems, ih]

theorem distinctKeys_replyId (req : Message) : (replyId req).DistinctKeys := by
  unfold replyId
  split <;> trivial

theorem distinctKeys_respondPage {key : String} {page : List JsonValue} {next : Option Nat}
    (hpage : ∀ v ∈ page, v.DistinctKeys) (h : respondPage srv req key page next = some m) :
    m.dom.DistinctKeys := by
  obtain ⟨r₁, h₁, h⟩ := bind_eq_some_iff.mp h
  obtain ⟨r₂, h₂, h⟩ := bind_eq_some_iff.mp h
  obtain ⟨r₃, h₃, h⟩ := bind_eq_some_iff.mp h
  have hr₁ : r₁.DistinctKeys :=
    KeepsDistinct.setTake key (.array page) (distinctKeysItems_iff.mpr hpage) distinctKeys_empty h₁
  have hr₂ : r₂.DistinctKeys := by
    refine KeepsDistinct.setOptional "nextCursor" (fun v hv => ?_) hr₁ h₂
    obtain ⟨pos, -, rfl⟩ := map_eq_some_iff.mp hv
    trivial
  have hr₃ : r₃.DistinctKeys := KeepsDistinct.decorateResult srv true hr₂ h₃
  rw [mcpResponseOkNew_some] at h
  cases h
  exact Message.distinctKeys_set
    (Message.distinctKeys_set distinctKeys_newEnvelope "id" (distinctKeys_replyId req)) "result" hr₃

end Mcpkit
