import Mcpkit.Protocol.UriGrammar

/-!
# What a URI template matches

A URI matches a template if values can be chosen for the expressions; the matcher
takes the choice whose lengths come first in lexicographic order.

The search over the pieces of a template stands between the two: it is `match_step`
without the text of the template and the table of captures.
-/

namespace Mcpkit.Protocol.UriTemplate

open Json JsonValue List Utf8 JString Option Nat Function

/-- What stands in front of a value: the operator's prefix, for a query also `name=`. -/
def ParsedVarExpr.lead (e : ParsedVarExpr) : Bytes :=
  match e.op with
  | .simple | .plus => []
  | .query => 0x3F :: (e.name ++ [0x3D])
  | op => op.sigil

/-- The values an expression can take; the last piece of a template may hold a hash. -/
structure Admits (e : ParsedVarExpr) (last : Prop) (v : Bytes) : Prop where
  slash : e.op.isReserved = false → e.mod ≠ .modExplode → 0x2F ∉ v
  ampersand : e.op = .query → e.mod ≠ .modExplode → 0x26 ∉ v
  hash : e.op = .query → e.mod ≠ .modExplode → ¬last → 0x23 ∉ v
  short : ∀ k, e.mod = .modPrefix k → v.length ≤ k

/-- Values for the expressions of a template that make it a given URI. -/
inductive IsChoice : List Piece → Bytes → List Bytes → Prop
  | nil : IsChoice [] [] []
  | literal {c : UInt8} {ps : List Piece} {u : Bytes} {vs : List Bytes} (h : IsChoice ps u vs) :
      IsChoice (.literal c :: ps) (c :: u) vs
  | expr {e : ParsedVarExpr} {ps : List Piece} {v u : Bytes} {vs : List Bytes}
      (hv : Admits e (ps = []) v) (h : IsChoice ps u vs) :
      IsChoice (.expr e :: ps) (e.lead ++ (v ++ u)) (v :: vs)

/-- The choice whose vector of lengths is lexicographically least. -/
structure IsLeastChoice (ps : List Piece) (u : Bytes) (vs : List Bytes) : Prop where
  choice : IsChoice ps u vs
  least : ∀ ws, IsChoice ps u ws →
    vs = ws ∨ List.Lex (· < ·) (vs.map List.length) (ws.map List.length)

variable {u v : Bytes} {c : UInt8} {e : ParsedVarExpr} {vs : List Bytes} {ps : List Piece}
  {caps : List RawCapture}

variable {rest uVal p : Bytes} {ws : List Bytes} {cap : RawCapture}

theorem skipChar_eq_some_iff : skipChar c u = some rest ↔ u = c :: rest := by
  cases u with
  | nil | cons d u => simp [skipChar]

theorem skipOperator_eq_some_iff : e.skipOperator u = some uVal ↔ u = e.lead ++ uVal := by
  cases hop : e.op with
  | query =>
    simp only [ParsedVarExpr.skipOperator, ParsedVarExpr.lead, hop, bind_eq_bind,
      bind_eq_some_iff, skipChar_eq_some_iff, matchLit_eq_some_iff]
    simp
  | _ => simp [ParsedVarExpr.skipOperator, ParsedVarExpr.lead, hop, skipChar_eq_some_iff,
      UriOp.sigil]

theorem noSlash_iff : e.noSlash = true ↔ e.op.isReserved = false ∧ e.mod ≠ .modExplode := by
  simp [ParsedVarExpr.noSlash]

theorem inQuery_iff : e.inQuery = true ↔ e.op = .query ∧ e.mod ≠ .modExplode := by
  simp [ParsedVarExpr.inQuery]

theorem admits_iff {last : Prop} :
    Admits e last v ↔
      (e.noSlash = true → 0x2F ∉ v) ∧ (e.inQuery = true → 0x26 ∉ v) ∧
        (e.inQuery = true → ¬last → 0x23 ∉ v) ∧ ∀ k, e.mod = .modPrefix k → v.length ≤ k := by
  simp only [noSlash_iff, inQuery_iff, and_imp]
  exact ⟨fun h => ⟨h.slash, h.ampersand, h.hash, h.short⟩, fun ⟨h₁, h₂, h₃, h₄⟩ => ⟨h₁, h₂, h₃, h₄⟩⟩

theorem takesRest_iff : e.takesRest v = true ↔ Admits e True v := by
  rw [admits_iff, ParsedVarExpr.takesRest]
  cases e.noSlash <;> cases e.inQuery <;> cases e.mod <;> simp [and_assoc]

theorem length_le_maxLen_iff (h : v.length ≤ u.length) :
    v.length ≤ e.maxLen u ↔ ∀ k, e.mod = .modPrefix k → v.length ≤ k := by
  rw [ParsedVarExpr.maxLen]
  cases e.mod <;> simp [h]

theorem stopsAt_eq_false_iff :
    e.stopsAt c = false ↔
      (e.noSlash = true → c ≠ 0x2F) ∧ (e.inQuery = true → c ≠ 0x26 ∧ c ≠ 0x23) := by
  rw [ParsedVarExpr.stopsAt]
  cases e.noSlash <;> cases e.inQuery <;> simp

theorem forall_stopsAt_iff :
    (∀ c ∈ v, e.stopsAt c = false) ↔
      (e.noSlash = true → 0x2F ∉ v) ∧ (e.inQuery = true → 0x26 ∉ v ∧ 0x23 ∉ v) := by
  simp only [stopsAt_eq_false_iff]
  constructor
  · intro h
    exact ⟨fun hs hmem => (h _ hmem).1 hs rfl,
      fun hq => ⟨fun hmem => ((h _ hmem).2 hq).1 rfl, fun hmem => ((h _ hmem).2 hq).2 rfl⟩⟩
  · rintro ⟨hslash, hquery⟩ c hc
    exact ⟨fun hs => ne_of_mem_of_not_mem hc (hslash hs),
      fun hq => (hquery hq).imp (ne_of_mem_of_not_mem hc) (ne_of_mem_of_not_mem hc)⟩

theorem mem_cuts_iff :
    (v, rest) ∈ Cuts.cuts e.stopsAt (e.maxLen uVal) uVal ↔ uVal = v ++ rest ∧ Admits e False v := by
  rw [Cuts.mem_cuts, admits_iff]
  refine and_congr_right fun heq => ?_
  have hlen : v.length ≤ uVal.length := by
    rw [heq, length_append]
    exact Nat.le_add_right ..
  rw [length_le_maxLen_iff hlen, forall_stopsAt_iff]
  simp only [not_false_eq_true, true_imp_iff]
  tauto

/-- `match_step` over the pieces of a template, with the values alone. -/
def search : List Piece → Bytes → Option (List Bytes)
  | [], u => if u = [] then some [] else none
  | .literal c :: ps, u => (skipChar c u).bind (search ps)
  | .expr e :: ps, u => (e.skipOperator u).bind fun uVal =>
    if ps.isEmpty then if e.takesRest uVal then some [uVal] else none
    else (Cuts.cuts e.stopsAt (e.maxLen uVal) uVal).findSome? fun cut =>
      (search ps cut.2).map (cut.1 :: ·)

theorem search_last :
    search [.expr e] u = some vs ↔ ∃ v, u = e.lead ++ v ∧ Admits e True v ∧ [v] = vs := by
  simp [search, bind_eq_some_iff, skipOperator_eq_some_iff, takesRest_iff]

theorem search_inner (hps : ps ≠ []) (u : Bytes) :
    search (.expr e :: ps) u = (e.skipOperator u).bind fun uVal =>
      (Cuts.cuts e.stopsAt (e.maxLen uVal) uVal).findSome? fun cut =>
        (search ps cut.2).map (cut.1 :: ·) := by
  simp [search, if_neg hps]

/-- An expression inside the template takes the shortest value behind which the search
goes on. -/
theorem exists_of_search_inner (hps : ps ≠ []) (h : search (.expr e :: ps) u = some vs) :
    ∃ v rest ws, u = e.lead ++ (v ++ rest) ∧ Admits e False v ∧ search ps rest = some ws ∧
      vs = v :: ws ∧ ∀ v' rest', v ++ rest = v' ++ rest' → Admits e False v' →
        v'.length < v.length → search ps rest' = none := by
  rw [search_inner hps] at h
  obtain ⟨uVal, hskip, h⟩ := bind_eq_some_iff.mp h
  obtain ⟨v, rest, hcut, hfound, hshorter⟩ := Cuts.exists_of_findSome?_cuts h
  obtain ⟨rfl, hv⟩ := mem_cuts_iff.mp hcut
  obtain ⟨ws, hws, rfl⟩ := map_eq_some_iff.mp hfound
  refine ⟨v, rest, ws, skipOperator_eq_some_iff.mp hskip, hv, hws, rfl, ?_⟩
  intro v' rest' heq hv' hlt
  exact map_eq_none_iff.mp (hshorter (v', rest') (mem_cuts_iff.mpr ⟨heq, hv'⟩) hlt)

theorem isChoice_of_search (h : search ps u = some vs) : IsChoice ps u vs := by
  induction ps generalizing u vs with
  | nil =>
    simp only [search, ite_none_right_eq_some, some.injEq] at h
    obtain ⟨rfl, rfl⟩ := h
    exact .nil
  | cons piece ps ih =>
    cases piece with
    | literal c =>
      obtain ⟨rest, hskip, h⟩ := bind_eq_some_iff.mp h
      rw [skipChar_eq_some_iff.mp hskip]
      exact .literal (ih h)
    | expr e =>
      by_cases hps : ps = []
      · subst hps
        obtain ⟨v, rfl, hv, rfl⟩ := search_last.mp h
        have hchoice : IsChoice [.expr e] (e.lead ++ (v ++ [])) [v] :=
          .expr (by simpa using hv) .nil
        rwa [append_nil] at hchoice
      · obtain ⟨v, rest, ws, rfl, hv, hws, rfl, -⟩ := exists_of_search_inner hps h
        exact .expr (by simpa [hps] using hv) (ih hws)

theorem isSome_search (h : IsChoice ps u vs) : (search ps u).isSome = true := by
  induction h with
  | nil => rfl
  | literal h ih =>
    rwa [search, skipChar_eq_some_iff.mpr rfl]
  | @expr e ps v u vs hv h ih =>
    by_cases hps : ps = []
    · subst hps
      cases h
      rw [append_nil, search_last.mpr ⟨v, rfl, by simpa using hv, rfl⟩]
      rfl
    rw [search_inner hps, skipOperator_eq_some_iff.mpr rfl, bind_some, findSome?_isSome_iff]
    have hv' : Admits e False v := by simpa [hps] using hv
    exact ⟨(v, u), mem_cuts_iff.mpr ⟨rfl, hv'⟩, by rw [isSome_map]; exact ih⟩

theorem search_least (h : search ps u = some vs) (hws : IsChoice ps u ws) :
    vs = ws ∨ List.Lex (· < ·) (vs.map List.length) (ws.map List.length) := by
  induction hws generalizing vs with
  | nil =>
    cases h
    exact .inl rfl
  | literal hws ih =>
    rw [search, skipChar_eq_some_iff.mpr rfl] at h
    exact ih h
  | @expr e ps w u ws hw hws ih =>
    by_cases hps : ps = []
    · subst hps
      cases hws
      obtain ⟨v, heq, -, rfl⟩ := search_last.mp h
      rw [append_nil, append_cancel_left_eq] at heq
      exact .inl (by rw [heq])
    obtain ⟨v, rest, vs, heq, hv, hvs, rfl, hshorter⟩ := exists_of_search_inner hps h
    rw [append_cancel_left_eq] at heq
    obtain hlt | hlen | hlt := lt_trichotomy v.length w.length
    · exact .inr (.rel hlt)
    · obtain ⟨rfl, rfl⟩ := append_inj heq.symm hlen
      exact (ih hvs).imp (congrArg (v :: ·)) .cons
    -- A choice with a shorter value would have been found first.
    have hnone := hshorter w u heq.symm (by simpa [hps] using hw) hlt
    have hsome := isSome_search hws
    rw [hnone] at hsome
    cases hsome

theorem isLeastChoice_of_search (h : search ps u = some vs) : IsLeastChoice ps u vs :=
  ⟨isChoice_of_search h, fun _ hws => search_least h hws⟩

def capturesOf (ps : List Piece) (vs : List Bytes) : List RawCapture :=
  List.zipWith ParsedVarExpr.capture (exprs ps) vs

theorem SplitsInto.eq_nil_iff (h : SplitsInto p ps) : p = [] ↔ ps = [] := by cases h <;> simp

theorem matchStep_literal (hopen : c ≠ 0x7B) (fuel : Nat) (p u : Bytes) (caps : List RawCapture) :
    matchStep (fuel + 1) (c :: p) u caps =
      (skipChar c u).bind fun rest => matchStep fuel p rest caps := by
  rw [matchStep, if_neg hopen]
  rfl

theorem matchStep_expr {text : Bytes} (hclose : 0x7D ∉ text) (he : IsExprText e text) (fuel : Nat)
    (next u : Bytes) (hroom : caps.length < maxRawCaptures) :
    matchStep (fuel + 1) (0x7B :: (text ++ 0x7D :: next)) u caps =
      (e.skipOperator u).bind fun uVal =>
        if next = [] then if e.takesRest uVal then some (caps ++ [e.capture uVal]) else none
        else (Cuts.cuts e.stopsAt (e.maxLen uVal) uVal).findSome? fun cut =>
          matchStep fuel next cut.2 (caps ++ [e.capture cut.1]) := by
  rw [matchStep, if_pos rfl, strchrClose_eq_some_iff.mpr ⟨rfl, hclose⟩]
  simp [parseVarExpr_eq_some_iff.mpr he, hroom]

theorem matchStep_eq_search (h : SplitsInto p ps) {fuel : Nat} (hfuel : p.length < fuel) (u : Bytes)
    (hroom : caps.length + (exprs ps).length ≤ maxRawCaptures) :
    matchStep fuel p u caps = (search ps u).map fun vs => caps ++ capturesOf ps vs := by
  induction h generalizing fuel u caps with
  | nil =>
    obtain ⟨fuel, rfl⟩ := Nat.exists_eq_add_of_le' (Nat.one_le_of_lt hfuel)
    rw [matchStep, search]
    split <;> simp [capturesOf, exprs]
  | literal hopen hclose h ih =>
    obtain ⟨fuel, rfl⟩ := Nat.exists_eq_add_of_le' (Nat.one_le_of_lt hfuel)
    rw [matchStep_literal hopen, search, map_bind]
    congr 1
    funext rest
    exact ih (lt_of_succ_lt_succ hfuel) rest hroom
  | @expr text p e ps hclose he h ih =>
    obtain ⟨fuel, rfl⟩ := Nat.exists_eq_add_of_le' (Nat.one_le_of_lt hfuel)
    have hlen : p.length < fuel := by
      simp only [length_cons, length_append] at hfuel
      omega
    have hroom' : caps.length + 1 + (exprs ps).length ≤ maxRawCaptures := by
      simp only [exprs, length_cons] at hroom
      omega
    rw [matchStep_expr hclose he _ _ _ (by omega), search, map_bind]
    congr 1
    funext uVal
    by_cases hps : ps = []
    · rw [if_pos (h.eq_nil_iff.mpr hps), comp_apply, if_pos (List.isEmpty_iff.mpr hps)]
      split <;> simp [hps, capturesOf, exprs]
    rw [if_neg (mt h.eq_nil_iff.mp hps), comp_apply,
      if_neg (mt List.isEmpty_iff.mp hps), map_findSome?]
    congr 1
    funext cut
    rw [ih hlen cut.2 (by simpa using hroom'), comp_apply, Option.map_map]
    congr 1
    funext vs
    simp [capturesOf, exprs]

/-- A capture that fits into the object: the name, cut to the array, and the decoded texts
are UTF-8. -/
structure RawCapture.Storable (cap : RawCapture) : Prop where
  name : WellFormed (cString cap.cutName)
  texts : ∀ token ∈ cap.tokens, WellFormed (cString (urlDecode token))

theorem isSome_foldlM_iff {α β : Type*} {step : β → α → Option β} {I : β → Prop} {P : α → Prop}
    (hstep : ∀ b a, I b → ((∃ b', step b a = some b') ↔ P a))
    (hinv : ∀ b a b', I b → step b a = some b' → I b') {l : List α} {b : β} (hb : I b) :
    (l.foldlM step b).isSome = true ↔ ∀ a ∈ l, P a := by
  induction l generalizing b with
  | nil => simp
  | cons a l ih =>
    rw [foldlM_cons, forall_mem_cons, ← hstep b a hb]
    cases h : step b a with
    | none => simp
    | some b' => simpa using ih (hinv b a b' hb h)

theorem exists_decoded_iff {token : Bytes} :
    (∃ v, decoded token = some v) ↔ WellFormed (cString (urlDecode token)) := by
  rw [decoded, newString, newStringN, ← utf8Valid_iff]
  simp [zero_notMem_cString]

theorem isSome_jsonValue_iff :
    cap.jsonValue.isSome = true ↔ ∀ token ∈ cap.tokens, WellFormed (cString (urlDecode token)) := by
  rw [RawCapture.jsonValue]
  split
  case isTrue hmod =>
    refine isSome_foldlM_iff (I := fun arr => ∃ items, arr = array items) ?_ ?_ ⟨[], rfl⟩
    · rintro _ token ⟨items, rfl⟩
      rw [← exists_decoded_iff]
      cases decoded token <;> simp [arrayAppend, Except.toOption]
    · rintro _ token arr ⟨items, rfl⟩ h
      obtain ⟨v, -, h⟩ := bind_eq_some_iff.mp h
      exact ⟨_, (some.inj h).symm⟩
  case isFalse hmod =>
    rw [isSome_iff_exists, exists_decoded_iff, RawCapture.tokens, if_neg hmod]
    simp

theorem toOption_objectSet (members : MemberList) (key : Bytes) (v : JsonValue) :
    ((object members).objectSet key v).toOption =
      (ofBuffer key).map fun k => object (Assoc.set members k v) := by
  cases h : ofBuffer key <;> simp [objectSet, h, Except.toOption]

theorem isSome_ofBuffer_iff {key : Bytes} :
    (ofBuffer key).isSome = true ↔ WellFormed (cString key) := by
  rw [ofBuffer, ← utf8Valid_iff]
  split <;> simp_all

theorem RawCapture.storable_iff :
    cap.Storable ↔ cap.jsonValue.isSome = true ∧ (ofBuffer cap.cutName).isSome = true := by
  rw [isSome_jsonValue_iff, isSome_ofBuffer_iff]
  exact ⟨fun h => ⟨h.texts, h.name⟩, fun h => ⟨h.2, h.1⟩⟩

theorem isSome_collectVariables_iff :
    (collectVariables caps).isSome = true ↔ ∀ cap ∈ caps, cap.Storable := by
  refine isSome_foldlM_iff (I := fun obj => ∃ members, obj = object members) ?_ ?_ ⟨[], rfl⟩
  · rintro _ cap ⟨members, rfl⟩
    simp only [toOption_objectSet, RawCapture.storable_iff]
    cases cap.jsonValue <;> simp [isSome_iff_exists]
  rintro _ cap obj ⟨members, rfl⟩ h
  simp only [toOption_objectSet, bind_eq_bind, bind_eq_some_iff,
    map_eq_some_iff] at h
  obtain ⟨v, -, k, -, rfl⟩ := h
  exact ⟨_, rfl⟩

theorem IsChoice.length_eq (h : IsChoice ps u vs) : vs.length = (exprs ps).length := by
  induction h with
  | nil => rfl
  | literal h ih => exact ih
  | expr hv h ih => exact congrArg succ ih

theorem IsLeastChoice.unique (hvs : IsLeastChoice ps u vs) (hws : IsLeastChoice ps u ws) :
    vs = ws := by
  obtain heq | hlex := hvs.least ws hws.choice
  · exact heq
  · obtain heq | hlex' := hws.least vs hvs.choice
    · exact heq.symm
    · exact absurd hlex' (lex_asymm (fun hlt => lt_asymm hlt) hlex)

theorem map_val_capturesOf (h : vs.length = (exprs ps).length) :
    (capturesOf ps vs).map RawCapture.val = vs := by
  rw [capturesOf, map_zipWith]
  exact (map_zip_eq_zipWith (f := Prod.snd)).symm.trans (map_snd_zip h.le)

namespace Template

variable (t : Template) (uri : CString) (outVariables : Bool)

theorem rawCaptures_eq :
    rawCaptures t.text uri = (search t.pieces uri.bytes).map (capturesOf t.pieces) := by
  have hroom : ([] : List RawCapture).length + (exprs t.pieces).length ≤ maxRawCaptures := by
    rw [length_nil, zero_add]
    exact t.few
  exact matchStep_eq_search t.splits (lt_succ_self _) uri.bytes hroom

theorem status_eq_ok_iff :
    (mcpUriTemplateMatch (some t.text) (some uri) outVariables).1 = .ok ↔
      ∃ vs, search t.pieces uri.bytes = some vs ∧
        (outVariables = true → ∀ cap ∈ capturesOf t.pieces vs, cap.Storable) := by
  simp only [mcpUriTemplateMatch, validPattern_iff.mpr ⟨_, t.splits⟩, if_true, t.rawCaptures_eq uri]
  cases search t.pieces uri.bytes with
  | none => simp
  | some vs =>
    simp only [map_some, some.injEq, exists_eq_left', ← isSome_collectVariables_iff]
    cases outVariables with
    | false => simp
    | true => cases collectVariables (capturesOf t.pieces vs) <;> simp

/-- The matcher succeeds if and only if there is a choice of values, and then it has
captured the one whose lengths are least. -/
structure MatchesLeast : Prop where
  succeeds : (mcpUriTemplateMatch (some t.text) (some uri) outVariables).1 = .ok ↔
    ∃ vs, IsChoice t.pieces uri.bytes vs
  captured : (mcpUriTemplateMatch (some t.text) (some uri) outVariables).1 = .ok →
    ∃ caps, rawCaptures t.text uri = some caps ∧
      IsLeastChoice t.pieces uri.bytes (caps.map RawCapture.val)

/-- A matching URI fails only where its variables are asked for and one of them does not
fit into a JSON object. -/
theorem matchesLeast_iff_storable :
    t.MatchesLeast uri outVariables ↔
      (outVariables = true → ∀ vs, IsLeastChoice t.pieces uri.bytes vs →
        ∀ cap ∈ capturesOf t.pieces vs, cap.Storable) := by
  constructor
  · intro h hout vs hvs
    obtain ⟨ws, hws, hstorable⟩ :=
      (t.status_eq_ok_iff uri outVariables).mp (h.succeeds.mpr ⟨vs, hvs.choice⟩)
    rw [hvs.unique (isLeastChoice_of_search hws)]
    exact hstorable hout
  intro h
  have hfound : ∀ vs, search t.pieces uri.bytes = some vs →
      (mcpUriTemplateMatch (some t.text) (some uri) outVariables).1 = .ok := fun vs hvs =>
    (t.status_eq_ok_iff uri outVariables).mpr
      ⟨vs, hvs, fun hout => h hout vs (isLeastChoice_of_search hvs)⟩
  refine ⟨⟨fun hok => ?_, fun ⟨ws, hws⟩ => ?_⟩, fun hok => ?_⟩
  · obtain ⟨vs, hvs, -⟩ := (t.status_eq_ok_iff uri outVariables).mp hok
    exact ⟨vs, isChoice_of_search hvs⟩
  · obtain ⟨vs, hvs⟩ := isSome_iff_exists.mp (isSome_search hws)
    exact hfound vs hvs
  obtain ⟨vs, hvs, -⟩ := (t.status_eq_ok_iff uri outVariables).mp hok
  have hleast := isLeastChoice_of_search hvs
  refine ⟨capturesOf t.pieces vs, by rw [t.rawCaptures_eq, hvs]; rfl, ?_⟩
  rwa [map_val_capturesOf hleast.choice.length_eq]

end Template

-- A value in front of a literal is as short as the literal allows.
example :
    (rawCaptures ⟨[0x7B, 0x61, 0x7D, 0x2D, 0x7B, 0x62, 0x7D], by decide⟩
      ⟨[0x78, 0x2D, 0x79, 0x2D, 0x7A], by decide⟩).map (·.map RawCapture.val) =
        some [[0x78], [0x79, 0x2D, 0x7A]] := by
  decide

def charAndVariable : Template where
  text := ⟨[0x78, 0x7B, 0x76, 0x7D], by decide⟩
  pieces := [.literal 0x78, .expr ⟨.simple, [0x76], .modNone⟩]
  splits :=
    have hexpr : IsExprText ⟨.simple, [0x76], .modNone⟩ [0x76] :=
      ⟨⟨[], rfl, rfl⟩, by decide, by decide, fun _ => rfl, fun _ => by decide⟩
    .literal (by decide) (by decide) (.expr (by decide) hexpr .nil)
  few := by decide

/-- The character `x` and an escape for a byte that no UTF-8 text holds. -/
def escapedUri : CString := ⟨[0x78, 0x25, 0x46, 0x46], by decide⟩

theorem match_escapedUri :
    IsChoice charAndVariable.pieces escapedUri.bytes [[0x25, 0x46, 0x46]] ∧
      mcpUriTemplateMatch (some charAndVariable.text) (some escapedUri) true = (.noMem, none) ∧
      ¬charAndVariable.MatchesLeast escapedUri true := by
  have hvalue : Admits ⟨.simple, [0x76], .modNone⟩ ([] = ([] : List Piece)) [0x25, 0x46, 0x46] :=
    ⟨fun _ _ => by decide, fun _ _ => by decide, fun _ _ _ => by decide, fun _ h => by cases h⟩
  have hchoice : IsChoice charAndVariable.pieces escapedUri.bytes [[0x25, 0x46, 0x46]] :=
    .literal (.expr hvalue .nil)
  have hmatch : mcpUriTemplateMatch (some charAndVariable.text) (some escapedUri) true =
      (.noMem, none) := rfl
  refine ⟨hchoice, hmatch, fun h => ?_⟩
  have hok := h.succeeds.mpr ⟨_, hchoice⟩
  rw [hmatch] at hok
  cases hok

end Mcpkit.Protocol.UriTemplate
