import Mcpkit.Protocol.UriExpand

/-!
# Matching a template against its expansion

The matcher divides an expansion again, and gets the values back where it cannot divide it in
another way: where every value is followed by a literal that it does not hold.  A length modifier
counts characters when a value is expanded and bytes of its encoding when it is matched, so an
expansion need not match its own template.
-/

namespace Mcpkit.Protocol.UriTemplate

open Json JsonValue List Assoc JString Nat

/-- The URI that a template spells with values for its expressions. -/
def spelling : List Piece → List Bytes → Bytes
  | [], _ => []
  | .literal c :: ps, vs => c :: spelling ps vs
  | .expr e :: ps, v :: vs => e.lead ++ (v ++ spelling ps vs)
  | .expr _ :: _, [] => []

variable {ps : List Piece} {vs : List Bytes}

theorem IsChoice.eq_spelling {u : Bytes} (h : IsChoice ps u vs) : u = spelling ps vs := by
  induction h with
  | nil => rfl
  | literal _ ih => exact congrArg (_ :: ·) ih
  | expr _ _ ih => rw [ih, spelling]

theorem count_spelling (c : UInt8) (hlength : vs.length = (exprs ps).length) :
    (spelling ps vs).count c =
      (spelling ps (replicate (exprs ps).length [])).count c + vs.flatten.count c := by
  induction ps generalizing vs with
  | nil =>
    obtain rfl := length_eq_zero_iff.mp hlength
    rfl
  | cons piece ps ih =>
    cases piece with
    | literal b =>
      simp only [spelling, exprs, count_cons, ih hlength]
      omega
    | expr e =>
      obtain ⟨v, vs, rfl⟩ := exists_cons_of_length_eq_add_one hlength
      have hrest := ih (succ.inj hlength)
      simp only [spelling, exprs, length_cons, replicate_succ, count_append, flatten_cons, hrest,
        count_nil]
      omega

/-- A front that ends in front of a character it does not hold is no longer than another
one followed by the same character. -/
theorem length_le_of_append_cons {c : UInt8} {v v' rest rest' : Bytes} (hc : c ∉ v)
    (h : v' ++ c :: rest' = v ++ rest) : v.length ≤ v'.length := by
  by_contra hlt
  rw [not_le] at hlt
  have hget : (v' ++ c :: rest')[v'.length]? = some c := by simp
  rw [h, getElem?_append_left hlt] at hget
  exact hc (mem_of_getElem? hget)

/-- Each expression is followed by the end of the template or by a literal that no encoded
string holds. -/
def Delimited : List Piece → Prop
  | [] => True
  | .literal _ :: ps => Delimited ps
  | [.expr _] => True
  | .expr _ :: .literal c :: ps =>
    (isUnreserved c = false ∧ c ≠ 0x25) ∧ Delimited (.literal c :: ps)
  | .expr _ :: .expr _ :: _ => False

/-- None of the values holds a literal that can delimit an expression. -/
def Undelimited (vs : List Bytes) : Prop :=
  ∀ c, isUnreserved c = false → c ≠ 0x25 → c ∉ vs.flatten

theorem Undelimited.of_cons {v : Bytes} (h : Undelimited (v :: vs)) : Undelimited vs :=
  fun c hc hne hmem => h c hc hne (mem_append_right _ hmem)

/-- Values without delimiters can be told apart in a text. -/
theorem eq_of_spelling_eq (hdelimited : Delimited ps) {ws : List Bytes}
    (hvs : vs.length = (exprs ps).length) (hws : ws.length = (exprs ps).length)
    (hfree : Undelimited vs) (hfree' : Undelimited ws) (h : spelling ps vs = spelling ps ws) :
    vs = ws := by
  fun_induction Delimited ps generalizing vs ws
  case case1 => rw [length_eq_zero_iff.mp hvs, length_eq_zero_iff.mp hws]
  case case2 c ps ih => exact ih hdelimited hvs hws hfree hfree' (List.cons.inj h).2
  case case3 e =>
    obtain ⟨v, rfl⟩ := length_eq_one_iff.mp hvs
    obtain ⟨w, rfl⟩ := length_eq_one_iff.mp hws
    simpa [spelling] using h
  case case4 e c ps ih =>
    obtain ⟨v, vs, rfl⟩ := exists_cons_of_length_eq_add_one hvs
    obtain ⟨w, ws, rfl⟩ := exists_cons_of_length_eq_add_one hws
    obtain ⟨⟨hunreserved, hpercent⟩, hrest⟩ := hdelimited
    simp only [spelling, append_cancel_left_eq] at h
    have hv : c ∉ v := fun hmem => hfree c hunreserved hpercent (mem_append_left _ hmem)
    have hw : c ∉ w := fun hmem => hfree' c hunreserved hpercent (mem_append_left _ hmem)
    have hle := length_le_of_append_cons hw h
    have hge := length_le_of_append_cons hv h.symm
    obtain ⟨rfl, htail⟩ := append_inj h (le_antisymm hge hle)
    rw [ih hrest (succ.inj hvs) (succ.inj hws) hfree.of_cons hfree'.of_cons htail]
  case case5 => exact hdelimited.elim

/-- A text with delimited values without delimiters can be divided in no other way: in another
division the values would hold as many delimiters. -/
theorem IsChoice.eq_of_delimited (hdelimited : Delimited ps) {ws : List Bytes}
    (hws : ws.length = (exprs ps).length) (hfree : Undelimited ws)
    (h : IsChoice ps (spelling ps ws) vs) : vs = ws := by
  have hlength := h.length_eq
  refine eq_of_spelling_eq hdelimited hlength hws (fun c hc hne => ?_) hfree h.eq_spelling.symm
  have hcount := count_spelling c hlength
  rw [← h.eq_spelling, count_spelling c hws, count_eq_zero_of_not_mem (hfree c hc hne),
    add_left_cancel_iff] at hcount
  exact count_eq_zero.mp hcount.symm

/-- A variable has a value, under a name that fits into its array. -/
structure Assigns (vars : JsonValue) (e : ParsedVarExpr) (a : JString × JsonValue) : Prop where
  short : e.name.length < 128
  name : a.1.bytes = e.name
  get : vars.objectGet a.1 = some a.2

/-- Strings for the variables of a template, a name and a string for each expression. -/
def AssignsStrings (vars : JsonValue) (es : List ParsedVarExpr)
    (assignment : List (JString × JString)) : Prop :=
  List.Forall₂ (fun e a => Assigns vars e (a.1, string a.2)) es assignment

def encodings (es : List ParsedVarExpr) (assignment : List (JString × JString)) : List Bytes :=
  List.zipWith (fun e a => e.encoded a.2.bytes) es assignment

namespace Assigns

variable {vars : JsonValue} {e : ParsedVarExpr} {a : JString × JsonValue} (h : Assigns vars e a)

include h

theorem nameBuf_eq : e.nameBuf = e.name := take_of_length_le (le_of_lt_succ h.short)

theorem ofBuffer_name : ofBuffer e.name = some a.1 := by rw [← h.name, ofBuffer_bytes]

theorem ofBuffer_cutName (v : Bytes) : ofBuffer (e.capture v).cutName = some a.1 := by
  rw [← h.ofBuffer_name, ← h.nameBuf_eq]
  rfl

theorem expandLead_eq : e.expandLead = e.lead := by
  rw [ParsedVarExpr.expandLead, ParsedVarExpr.prefixText, ParsedVarExpr.lead, h.nameBuf_eq]
  cases e.op <;> rfl

theorem expand_eq [NumberFormat] : e.expand (some vars) = e.expandValue a.2 := by
  have hlookup : e.lookupIn (some vars) = some a.2 := by
    rw [ParsedVarExpr.lookupIn, h.nameBuf_eq, h.ofBuffer_name]
    exact h.get
  rw [ParsedVarExpr.expand, hlookup]

end Assigns

variable {assignment : List (JString × JString)} {vars : JsonValue} {es : List ParsedVarExpr}

section Expansion

variable [NumberFormat]

theorem flatMap_expand_eq_spelling (h : AssignsStrings vars (exprs ps) assignment) :
    ps.flatMap (Piece.expand (some vars)) = spelling ps (encodings (exprs ps) assignment) := by
  induction ps generalizing assignment with
  | nil => rfl
  | cons piece ps ih =>
    cases piece with
    | literal c =>
      rw [flatMap_cons, ih h]
      rfl
    | expr e =>
      obtain ⟨a, rest, ha, hrest, rfl⟩ := forall₂_cons_left_iff.mp h
      have hvalue : e.expandValue (string a.2) = e.lead ++ e.encoded a.2.bytes := by
        rw [← ha.expandLead_eq]
        rfl
      rw [flatMap_cons, ih hrest, Piece.expand, ha.expand_eq, hvalue, append_assoc]
      rfl

theorem Template.bytes_expansion {t : Template}
    (h : AssignsStrings vars (exprs t.pieces) assignment) :
    (t.expansion (some vars)).bytes = spelling t.pieces (encodings (exprs t.pieces) assignment) :=
  flatMap_expand_eq_spelling h

end Expansion

theorem admits_encoded {e : ParsedVarExpr} {str : Bytes} (last : Prop)
    (hfits : ∀ k, e.mod = .modPrefix k → (e.encoded str).length ≤ k) :
    Admits e last (e.encoded str) where
  slash hop _ := notMem_encoded (by rw [hop]; decide) str
  ampersand hop _ := notMem_encoded (by rw [hop]; decide) str
  hash hop _ _ := notMem_encoded (by rw [hop]; decide) str
  short := hfits

/-- The encoding of each string is short enough for the length modifier of its
expression. -/
def Fits (es : List ParsedVarExpr) (assignment : List (JString × JString)) : Prop :=
  List.Forall₂ (fun e a => ∀ k, e.mod = .modPrefix k → (e.encoded a.2.bytes).length ≤ k)
    es assignment

theorem isChoice_encodings (h : Fits (exprs ps) assignment) :
    IsChoice ps (spelling ps (encodings (exprs ps) assignment))
      (encodings (exprs ps) assignment) := by
  induction ps generalizing assignment with
  | nil =>
    cases h
    exact .nil
  | cons piece ps ih =>
    cases piece with
    | literal c => exact .literal (ih h)
    | expr e =>
      obtain ⟨a, rest, ha, hrest, rfl⟩ := forall₂_cons_left_iff.mp h
      exact .expr (admits_encoded _ ha) (ih hrest)

theorem undelimited_encodings (h : ∀ e ∈ es, e.op.isReserved = false)
    (assignment : List (JString × JString)) : Undelimited (encodings es assignment) := by
  intro c hunreserved hpercent hmem
  obtain ⟨v, hv, hc⟩ := mem_flatten.mp hmem
  rw [encodings, ← map_uncurry_zip_eq_zipWith, mem_map] at hv
  obtain ⟨⟨e, a⟩, hmem, rfl⟩ := hv
  refine notMem_encoded ?_ _ hc
  rw [h e (of_mem_zip hmem).1, InEncoded, hunreserved]
  simp [hpercent]

theorem fits_of_isChoice {u : Bytes} (hlength : (exprs ps).length = assignment.length)
    (h : IsChoice ps u (encodings (exprs ps) assignment)) : Fits (exprs ps) assignment := by
  induction ps generalizing assignment u with
  | nil =>
    obtain rfl := length_eq_zero_iff.mp hlength.symm
    exact .nil
  | cons piece ps ih =>
    cases piece with
    | literal c =>
      cases h with
      | literal hrest => exact ih hlength hrest
    | expr e =>
      obtain ⟨a, assignment, rfl⟩ := exists_cons_of_length_eq_add_one hlength.symm
      cases h with
      | expr hadmits hrest => exact .cons hadmits.short (ih (succ.inj hlength) hrest)

/-- Between delimiters only the encodings themselves are found. -/
theorem search_encodings_iff (hdelimited : Delimited ps)
    (hop : ∀ e ∈ exprs ps, e.op.isReserved = false)
    (h : AssignsStrings vars (exprs ps) assignment) :
    search ps (spelling ps (encodings (exprs ps) assignment)) = some vs ↔
      vs = encodings (exprs ps) assignment ∧ Fits (exprs ps) assignment := by
  have hlength : (encodings (exprs ps) assignment).length = (exprs ps).length := by
    rw [encodings, length_zipWith, ← h.length_eq, min_self]
  have honly : ∀ {ws}, search ps (spelling ps (encodings (exprs ps) assignment)) = some ws →
      IsChoice ps (spelling ps (encodings (exprs ps) assignment)) ws ∧
        ws = encodings (exprs ps) assignment := fun hws =>
    have hchoice := (isLeastChoice_of_search hws).choice
    ⟨hchoice, hchoice.eq_of_delimited hdelimited hlength (undelimited_encodings hop assignment)⟩
  constructor
  · intro hsearch
    obtain ⟨hchoice, rfl⟩ := honly hsearch
    exact ⟨rfl, fits_of_isChoice h.length_eq hchoice⟩
  · rintro ⟨rfl, hfits⟩
    obtain ⟨ws, hws⟩ := Option.isSome_iff_exists.mp (isSome_search (isChoice_encodings hfits))
    rw [hws, (honly hws).2]

theorem AssignsStrings.exists_of_mem (h : AssignsStrings vars es assignment) {e : ParsedVarExpr}
    (he : e ∈ es) : ∃ a, Assigns vars e a := by
  induction h with
  | nil => cases he
  | cons ha _ ih =>
    obtain rfl | he := mem_cons.mp he
    · exact ⟨_, ha⟩
    · exact ih he

theorem AssignsStrings.wellFormed_cutName (h : AssignsStrings vars (exprs ps) assignment)
    {cap : RawCapture} (hcap : cap ∈ capturesOf ps vs) : Utf8.WellFormed (cString cap.cutName) := by
  rw [capturesOf, ← map_uncurry_zip_eq_zipWith, mem_map] at hcap
  obtain ⟨⟨e, v⟩, hmem, rfl⟩ := hcap
  obtain ⟨a, ha⟩ := h.exists_of_mem (of_mem_zip hmem).1
  rw [← isSome_ofBuffer_iff, Function.uncurry_apply_pair, ha.ofBuffer_cutName]
  rfl

@[reducible] def zeroFormat : NumberFormat := ⟨fun _ => ⟨[0x30], by decide⟩⟩

def nameV : JString := ⟨[0x76], by decide, by decide⟩

def blank : JString := ⟨[0x20], by decide, by decide⟩

-- The shortest value in front of a literal may end inside an escape.
example :
    mcpUriTemplateMatch
      (some ⟨[0x7B, 0x61, 0x7D, 0x41, 0x7B, 0x62, 0x7D], by decide⟩)
      (some ⟨[0x25, 0x43, 0x33, 0x25, 0x41, 0x39, 0x41], by decide⟩) true = (.noMem, none) :=
  rfl

variable {members : MemberList} {caps : List RawCapture}

theorem foldlM_objectSet
    (h : List.Forall₂
      (fun cap m => ofBuffer cap.cutName = some m.1 ∧ cap.jsonValue = some m.2) caps members)
    {before : MemberList} (hnodup : (keys (before ++ members)).Nodup) :
    caps.foldlM (fun obj cap => do (obj.objectSet cap.cutName (← cap.jsonValue)).toOption)
      (object before) = some (object (before ++ members)) := by
  induction h generalizing before with
  | nil => rw [append_nil]; rfl
  | @cons cap m caps members hcap _ ih =>
    have hfresh : m.1 ∉ keys before := by
      intro hmem
      rw [Assoc.keys, map_append, nodup_append] at hnodup
      exact hnodup.2.2 _ hmem _ (mem_cons_self ..) rfl
    have hassoc : before ++ m :: members = (before ++ [m]) ++ members := by
      rw [append_assoc, singleton_append]
    rw [hassoc] at hnodup ⊢
    rw [foldlM_cons, hcap.2, ← ih hnodup]
    simp [toOption_objectSet, hcap.1, set_of_notMem hfresh]

theorem collectVariables_eq
    (h : List.Forall₂
      (fun cap m => ofBuffer cap.cutName = some m.1 ∧ cap.jsonValue = some m.2) caps members)
    (hnodup : (keys members).Nodup) : collectVariables caps = some (object members) := by
  rw [← nil_append members] at hnodup ⊢
  exact foldlM_objectSet h hnodup

theorem Template.match_eq_ok_iff {t : Template} {uri : CString}
    (h : search t.pieces uri.bytes = some vs) {obj : JsonValue} :
    mcpUriTemplateMatch (some t.text) (some uri) true = (.ok, some obj) ↔
      collectVariables (capturesOf t.pieces vs) = some obj := by
  simp only [mcpUriTemplateMatch, validPattern_iff.mpr ⟨_, t.splits⟩, if_true,
    t.rawCaptures_eq uri, h, Option.map_some]
  cases collectVariables (capturesOf t.pieces vs) <;> simp

/-- A template whose values can be told apart in every expansion. -/
structure Template.Unambiguous (t : Template) : Prop where
  plain : ∀ e ∈ exprs t.pieces, e.op.isReserved = false ∧ e.mod = .modNone
  distinct : ((exprs t.pieces).map ParsedVarExpr.name).Nodup
  delimited : Delimited t.pieces

namespace AssignsStrings

variable {vars : JsonValue} {es : List ParsedVarExpr} {assignment : List (JString × JString)}

theorem map_bytes (h : AssignsStrings vars es assignment) :
    (assignment.map Prod.fst).map bytes = es.map ParsedVarExpr.name := by
  induction h with
  | nil => rfl
  | cons ha _ ih => rw [map_cons, map_cons, map_cons, ih, ha.name]

/-- Without length modifiers every string fits. -/
theorem fits (h : AssignsStrings vars es assignment) (hplain : ∀ e ∈ es, e.mod = .modNone) :
    Fits es assignment := by
  refine forall₂_iff_zip.mpr ⟨h.length_eq, fun {e a} hmem k hk => ?_⟩
  rw [hplain e (of_mem_zip hmem).1] at hk
  cases hk

theorem forall₂_capture (h : AssignsStrings vars es assignment)
    (hplain : ∀ e ∈ es, e.mod = .modNone) :
    List.Forall₂
      (fun cap m => ofBuffer cap.cutName = some m.1 ∧ cap.jsonValue = some m.2)
      (List.zipWith ParsedVarExpr.capture es (encodings es assignment))
      (assignment.map fun a => (a.1, string a.2)) := by
  induction h with
  | nil => exact .nil
  | @cons e a es assignment ha _ ih =>
    rw [forall_mem_cons] at hplain
    have hmod : (e.capture (e.encoded a.2.bytes)).mod ≠ .modExplode := by
      simp only [ParsedVarExpr.capture, hplain.1]
      decide
    have hwhole : ∀ k, e.mod ≠ .modPrefix k := by
      rw [hplain.1]
      exact fun k hk => by cases hk
    refine .cons ⟨ha.ofBuffer_cutName _, ?_⟩ (ih hplain.2)
    rw [RawCapture.jsonValue, if_neg hmod]
    exact decoded_encoded hwhole a.2

end AssignsStrings

section Strings

variable [NumberFormat]

/-- The match of an unambiguous template against its expansion returns the assignment. -/
theorem Template.match_expansion {t : Template} (ht : t.Unambiguous) {vars : JsonValue}
    {assignment : List (JString × JString)}
    (h : AssignsStrings vars (exprs t.pieces) assignment) :
    ∃ uri, mcpUriTemplateExpand (some t.text) (some vars) true = (.ok, some uri) ∧
      mcpUriTemplateMatch (some t.text) (some uri) true =
        (.ok, some (object (assignment.map fun a => (a.1, string a.2)))) := by
  refine ⟨_, t.mcpUriTemplateExpand_eq _, ?_⟩
  have hsearch : search t.pieces (t.expansion (some vars)).bytes =
      some (encodings (exprs t.pieces) assignment) := by
    rw [Template.bytes_expansion h,
      search_encodings_iff ht.delimited (fun e he => (ht.plain e he).1) h]
    exact ⟨rfl, h.fits fun e he => (ht.plain e he).2⟩
  have hkeys : (keys (assignment.map fun a => (a.1, string a.2))).Nodup := by
    have hdistinct := ht.distinct
    rw [← h.map_bytes] at hdistinct
    rw [Assoc.keys, map_map]
    exact hdistinct.of_map _
  rw [Template.match_eq_ok_iff hsearch]
  exact collectVariables_eq (h.forall₂_capture fun e he => (ht.plain e he).2) hkeys

end Strings

/-- An expression, a slash and a variable. -/
def slashAndVariable (e : ParsedVarExpr) (text : Bytes) (hexpr : IsExprText e text)
    (hnul : (0 : UInt8) ∉ text) (hclose : 0x7D ∉ text) : Template where
  text := ⟨0x7B :: (text ++ [0x7D, 0x2F, 0x7B, 0x76, 0x7D]), by simp [hnul]⟩
  pieces := [.expr e, .literal 0x2F, .expr ⟨.simple, [0x76], .modNone⟩]
  splits :=
    have hvar : IsExprText ⟨.simple, [0x76], .modNone⟩ [0x76] :=
      ⟨⟨[], rfl, rfl⟩, by decide, by decide, fun _ => rfl, fun _ => by decide⟩
    .expr hclose hexpr (.literal (by decide) (by decide) (.expr (by decide) hvar .nil))
  few := by simp [exprs]

def nameA : JString := ⟨[0x61], by decide, by decide⟩

/-- The template `{a}/{v}`. -/
def variableAndVariable : Template :=
  slashAndVariable ⟨.simple, [0x61], .modNone⟩ [0x61]
    ⟨⟨[], rfl, rfl⟩, by decide, by decide, fun _ => rfl, fun _ => by decide⟩ (by decide) (by decide)

theorem match_expansion_twoVariables :
    variableAndVariable.Unambiguous ∧
      ∃ uri, @mcpUriTemplateExpand zeroFormat (some variableAndVariable.text)
          (some (object [(nameV, string blank), (nameA, string nameV)])) true = (.ok, some uri) ∧
        mcpUriTemplateMatch (some variableAndVariable.text) (some uri) true =
          (.ok, some (object [(nameA, string nameV), (nameV, string blank)])) := by
  have hplain : variableAndVariable.Unambiguous := ⟨by decide, by decide, by decide, trivial⟩
  have hassigns : AssignsStrings (object [(nameV, string blank), (nameA, string nameV)])
      (exprs variableAndVariable.pieces) [(nameA, nameV), (nameV, blank)] :=
    .cons ⟨by decide, rfl, rfl⟩ (.cons ⟨by decide, rfl, rfl⟩ .nil)
  exact ⟨hplain, @Template.match_expansion zeroFormat _ hplain _ _ hassigns⟩

end Mcpkit.Protocol.UriTemplate
