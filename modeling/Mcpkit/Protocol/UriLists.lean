import Mcpkit.Protocol.UriRoundTrip

/-!
# Lists in an exploded expression

An exploded expression writes the items of a list with a delimiter between them, and in a
query the name in front of each.  The matcher splits at the delimiter and drops the names,
which gives the list back unless the name of a query holds the delimiter itself.
-/

namespace Mcpkit.Protocol.UriTemplate

open Json JsonValue List JString Nat

def ParsedVarExpr.itemName (e : ParsedVarExpr) : Bytes :=
  if e.op = .query then e.name ++ [0x3D] else []

def ParsedVarExpr.laterItem (e : ParsedVarExpr) (str : Bytes) : Bytes := e.itemName ++ e.encoded str

def ParsedVarExpr.listText (e : ParsedVarExpr) (str : Bytes) (strs : List Bytes) : Bytes :=
  [e.op.delim].intercalate (e.encoded str :: strs.map e.laterItem)

variable {α : Type*} {e : ParsedVarExpr}

theorem intercalate_singleton_cons (d : α) (l : List α) (ls : List (List α)) :
    [d].intercalate (l :: ls) = l ++ ls.flatMap (d :: ·) := by
  induction ls generalizing l with
  | nil => simp
  | cons m ls ih => rw [intercalate_cons_cons, ih, flatMap_cons, append_assoc]; rfl

namespace Assigns

variable {vars : JsonValue} {e : ParsedVarExpr} {a : JString × JsonValue} (h : Assigns vars e a)

include h

theorem expandExplodedItem_zero (str : Bytes) :
    e.expandExplodedItem 0 str = e.lead ++ e.encoded str := by
  rw [ParsedVarExpr.expandExplodedItem, ParsedVarExpr.lead, h.nameBuf_eq]
  cases e.op <;> simp [UriOp.sigil]

theorem expandExplodedItem_succ (i : Nat) (str : Bytes) :
    e.expandExplodedItem (i + 1) str = e.op.delim :: e.laterItem str := by
  rw [ParsedVarExpr.expandExplodedItem, ParsedVarExpr.laterItem, ParsedVarExpr.itemName,
    h.nameBuf_eq]
  cases e.op <;> simp [UriOp.delim]

theorem expandExploded_succ (i : Nat) (strs : List Bytes) :
    e.expandExploded (i + 1) strs = (strs.map e.laterItem).flatMap (e.op.delim :: ·) := by
  induction strs generalizing i with
  | nil => rfl
  | cons str strs ih =>
    rw [ParsedVarExpr.expandExploded, h.expandExplodedItem_succ, ih, map_cons, flatMap_cons]

theorem expandExploded_eq (str : Bytes) (strs : List Bytes) :
    e.expandExploded 0 (str :: strs) = e.lead ++ e.listText str strs := by
  rw [ParsedVarExpr.expandExploded, h.expandExplodedItem_zero, h.expandExploded_succ,
    ParsedVarExpr.listText, intercalate_singleton_cons, append_assoc]

end Assigns

@[simp] theorem ParsedVarExpr.capture_op (e : ParsedVarExpr) (v : Bytes) :
    (e.capture v).op = e.op := rfl

theorem bind_arrayAppend (items : List JsonValue) (item : Option JsonValue) :
    (item.bind fun v => ((array items).arrayAppend v).toOption) =
      item.map fun v => array (items ++ [v]) := by
  cases item <;> rfl

variable {v : JsonValue} {cap : RawCapture} {strs : List Bytes} {k : JString}

theorem foldlM_arrayAppend_iff {tokens : List Bytes} {items : List JsonValue} :
    tokens.foldlM (fun arr token => do (arr.arrayAppend (← decoded token)).toOption)
        (array items) = some v ↔
      ∃ more, List.Forall₂ (fun token item => decoded token = some item) tokens more ∧
        v = array (items ++ more) := by
  induction tokens generalizing items with
  | nil => simp [eq_comm]
  | cons token tokens ih =>
    rw [foldlM_cons, Option.bind_eq_bind, bind_arrayAppend]
    simp only [Option.bind_eq_some_iff, Option.map_eq_some_iff]
    constructor
    · rintro ⟨_, ⟨item, hitem, rfl⟩, hrest⟩
      obtain ⟨more, hmore, rfl⟩ := ih.mp hrest
      refine ⟨item :: more, .cons hitem hmore, ?_⟩
      rw [append_assoc, singleton_append]
    rintro ⟨_, hall, rfl⟩
    obtain ⟨item, more, hitem, hmore, rfl⟩ := forall₂_cons_left_iff.mp hall
    refine ⟨_, ⟨item, hitem, rfl⟩, ih.mpr ⟨more, hmore, ?_⟩⟩
    rw [append_assoc, singleton_append]

theorem RawCapture.jsonValue_explode_iff (h : cap.mod = .modExplode) :
    cap.jsonValue = some v ↔
      ∃ items, List.Forall₂ (fun token item => decoded token = some item) cap.tokens items ∧
        v = array items := by
  rw [RawCapture.jsonValue, if_pos h, foldlM_arrayAppend_iff]
  simp

theorem RawCapture.tokens_of_splitOn (h : cap.mod = .modExplode) {first : Bytes} {more : List Bytes}
    (hsplit : cap.val.splitOn cap.op.delim = first :: more) :
    cap.tokens = first :: more.map cap.dropName := by
  rw [RawCapture.tokens, if_pos h, hsplit]

theorem length_splitOn [DecidableEq α] (d : α) (l : List α) :
    (l.splitOn d).length = l.count d + 1 := by
  induction l with
  | nil => simp
  | cons c l ih =>
    rw [splitOn_cons_eq_if_modifyHead, count_cons]
    split <;> simp [ih]

theorem RawCapture.length_tokens (h : cap.mod = .modExplode) :
    cap.tokens.length = cap.val.count cap.op.delim + 1 := by
  have hlen := length_splitOn cap.op.delim cap.val
  cases hsplit : cap.val.splitOn cap.op.delim with
  | nil => simp [hsplit] at hlen
  | cons first more =>
    rw [← hlen, hsplit, cap.tokens_of_splitOn h hsplit]
    simp

section Delimiters

variable {vars : JsonValue} {e : ParsedVarExpr} {a : JString × JsonValue}
variable (hop : e.op = .simple ∨ e.op = .slash ∨ e.op = .query)

include hop

theorem delim_notMem_encoded (str : Bytes) : e.op.delim ∉ e.encoded str := by
  refine notMem_encoded ?_ str
  obtain hop | hop | hop := hop <;> rw [hop] <;> decide

theorem delim_notMem_laterItem (hname : e.op = .query → 0x26 ∉ e.name) (str : Bytes) :
    e.op.delim ∉ e.laterItem str := by
  rw [ParsedVarExpr.laterItem, mem_append, not_or]
  refine ⟨?_, delim_notMem_encoded hop str⟩
  rw [ParsedVarExpr.itemName]
  split
  case isTrue hquery =>
    have hdelim : UriOp.query.delim ∉ e.name := hname hquery
    rw [hquery, mem_append, not_or]
    exact ⟨hdelim, by decide⟩
  case isFalse => exact not_mem_nil

omit hop in
theorem Assigns.dropName_laterItem (h : Assigns vars e a) (v str : Bytes) :
    (e.capture v).dropName (e.laterItem str) = e.encoded str := by
  have hname : (e.capture v).cutName = e.name := h.nameBuf_eq
  rw [RawCapture.dropName, ParsedVarExpr.laterItem, ParsedVarExpr.itemName, hname,
    ParsedVarExpr.capture_op]
  by_cases hquery : e.op = .query
  · rw [if_pos hquery, if_pos hquery, matchLit_eq_some_iff.mpr rfl]
    rfl
  · rw [if_neg hquery, if_neg hquery, nil_append]

theorem Assigns.tokens_listText (h : Assigns vars e a) (hmod : e.mod = .modExplode) {str : Bytes}
    (hname : e.op = .query → 0x26 ∈ e.name → strs = []) :
    (e.capture (e.listText str strs)).tokens = (str :: strs).map e.encoded := by
  have hsplit : (e.listText str strs).splitOn e.op.delim =
      e.encoded str :: strs.map e.laterItem := by
    refine splitOn_intercalate _ ?_ (cons_ne_nil _ _)
    rw [forall_mem_cons, forall_mem_map]
    refine ⟨delim_notMem_encoded hop str, fun later hlater => ?_⟩
    refine delim_notMem_laterItem hop (fun hquery hmem => ?_) later
    rw [hname hquery hmem] at hlater
    cases hlater
  rw [RawCapture.tokens_of_splitOn hmod hsplit, map_map, map_cons]
  congr 1
  exact map_congr_left fun later _ => h.dropName_laterItem _ later

end Delimiters

theorem mul_length_le_count_flatMap {β : Type*} [DecidableEq β] {f : α → List β} {b : β} {n : Nat}
    (h : ∀ a, n ≤ (f a).count b) (l : List α) : n * l.length ≤ (l.flatMap f).count b := by
  induction l with
  | nil => exact zero_le _
  | cons a l ih =>
    rw [flatMap_cons, count_append, length_cons, mul_succ, add_comm]
    exact Nat.add_le_add (h a) ih

theorem two_le_count_laterItem (hop : e.op = .query) (hname : 0x26 ∈ e.name) (str : Bytes) :
    2 ≤ (e.op.delim :: e.laterItem str).count e.op.delim := by
  have hcount : 0 < e.name.count e.op.delim := by
    rw [hop]
    exact count_pos_iff.mpr hname
  rw [count_cons_self, ParsedVarExpr.laterItem, ParsedVarExpr.itemName, if_pos hop,
    count_append, count_append]
  omega

theorem length_lt_length_tokens (hmod : e.mod = .modExplode) (hop : e.op = .query)
    (hname : 0x26 ∈ e.name) (str : Bytes) (hne : strs ≠ []) :
    (str :: strs).length < (e.capture (e.listText str strs)).tokens.length := by
  have htokens : (e.capture (e.listText str strs)).tokens.length =
      (e.listText str strs).count e.op.delim + 1 := RawCapture.length_tokens hmod
  have hcount := mul_length_le_count_flatMap (two_le_count_laterItem hop hname) strs
  have hpos : 0 < strs.length := length_pos_iff.mpr hne
  rw [htokens, ParsedVarExpr.listText, intercalate_singleton_cons, flatMap_map,
    count_append, length_cons]
  omega

structure ListTemplate extends Template where
  literals : Bytes
  list : ParsedVarExpr
  ends : pieces = literals.map .literal ++ [.expr list]
  explodes : list.mod = .modExplode
  operator : list.op = .simple ∨ list.op = .slash ∨ list.op = .query

theorem exprs_literals (cs : Bytes) (ps : List Piece) :
    exprs (cs.map .literal ++ ps) = exprs ps := by
  induction cs with
  | nil => rfl
  | cons c cs ih => exact ih

theorem search_literals (cs : Bytes) (ps : List Piece) (u : Bytes) :
    search (cs.map .literal ++ ps) (cs ++ u) = search ps u := by
  induction cs with
  | nil => rfl
  | cons c cs ih =>
    rwa [map_cons, cons_append, cons_append, search, skipChar_eq_some_iff.mpr rfl]

theorem admits_of_explode (h : e.mod = .modExplode) (last : Prop) (v : Bytes) :
    Admits e last v where
  slash _ hmod := absurd h hmod
  ampersand _ hmod := absurd h hmod
  hash _ hmod _ := absurd h hmod
  short k hk := by
    rw [h] at hk
    cases hk

theorem flatMap_expand_literals [NumberFormat] (vars : Option JsonValue) (cs : Bytes) :
    (cs.map Piece.literal).flatMap (Piece.expand vars) = cs := by
  induction cs with
  | nil => rfl
  | cons c cs ih => exact congrArg (c :: ·) ih

theorem collectVariables_singleton_iff (h : ofBuffer cap.cutName = some k) :
    collectVariables [cap] = some (object [(k, v)]) ↔ cap.jsonValue = some v := by
  rw [collectVariables, foldlM_cons]
  cases hvalue : cap.jsonValue with
  | none => simp
  | some w => simp [toOption_objectSet, h]

namespace ListTemplate

variable (t : ListTemplate)

theorem search_listText (str : Bytes) (strs : List Bytes) :
    search t.pieces (t.literals ++ (t.list.lead ++ t.list.listText str strs)) =
      some [t.list.listText str strs] := by
  rw [t.ends, search_literals]
  exact search_last.mpr ⟨_, rfl, admits_of_explode t.explodes _ _, rfl⟩

theorem capturesOf_singleton (v : Bytes) : capturesOf t.pieces [v] = [t.list.capture v] := by
  rw [capturesOf, t.ends, exprs_literals]
  rfl

theorem bytes_expansion_list [NumberFormat] {vars : JsonValue} {item : JString}
    {items : List JString} (h : Assigns vars t.list (k, array ((item :: items).map string))) :
    (t.expansion (some vars)).bytes = t.literals ++
      (t.list.lead ++ t.list.listText item.bytes (items.map bytes)) := by
  have hvalue : t.list.expandValue (array ((item :: items).map string)) =
      t.list.expandExploded 0 ((item :: items).map bytes) := by
    simp [ParsedVarExpr.expandValue, t.explodes, Function.comp_def]
  have hexpr : Piece.expand (some vars) (.expr t.list) =
      t.list.lead ++ t.list.listText item.bytes (items.map bytes) := by
    rw [Piece.expand, h.expand_eq, hvalue, map_cons, h.expandExploded_eq]
  rw [Template.expansion]
  simp only [t.ends, flatMap_append, flatMap_expand_literals, flatMap_singleton, hexpr]

/-- The match against the expansion of a list returns the list, unless the list has two
items and an ampersand in the name of a query splits it elsewhere. -/
theorem match_list_iff [NumberFormat] {vars : JsonValue} {k : JString} {items : List JString}
    (hne : items ≠ []) (h : Assigns vars t.list (k, array (items.map string))) :
    ∃ uri, mcpUriTemplateExpand (some t.text) (some vars) true = (.ok, some uri) ∧
      (mcpUriTemplateMatch (some t.text) (some uri) true =
          (.ok, some (object [(k, array (items.map string))])) ↔
        (t.list.op = .query → 0x26 ∈ t.list.name → items.length = 1)) := by
  obtain ⟨item, items, rfl⟩ := exists_cons_of_ne_nil hne
  refine ⟨_, t.mcpUriTemplateExpand_eq _, ?_⟩
  have hsearch := t.search_listText item.bytes (items.map bytes)
  rw [← t.bytes_expansion_list h] at hsearch
  rw [Template.match_eq_ok_iff hsearch, t.capturesOf_singleton,
    collectVariables_singleton_iff (h.ofBuffer_cutName _),
    RawCapture.jsonValue_explode_iff t.explodes]
  constructor
  · -- The texts are as many as the items.
    rintro ⟨values, hall, heq⟩ hop hname
    obtain rfl := JsonValue.array.inj heq
    have hlen := hall.length_eq
    by_contra hmany
    have hitems : items.map bytes ≠ [] := by
      rintro hnil
      simp [map_eq_nil_iff.mp hnil] at hmany
    have hlt := length_lt_length_tokens t.explodes hop hname item.bytes hitems
    simp only [length_map, length_cons] at hlen hlt
    omega
  · intro hone
    refine ⟨_, ?_, rfl⟩
    have hwhole : ∀ k, t.list.mod ≠ .modPrefix k := by
      rw [t.explodes]
      exact fun k hk => by cases hk
    rw [h.tokens_listText t.operator t.explodes fun hop hname => by
        simpa using hone hop hname,
      ← map_cons, map_map, forall₂_map_left_iff, forall₂_map_right_iff, forall₂_same]
    exact fun s _ => decoded_encoded hwhole s

end ListTemplate

def charAndQuery (name : Bytes) (hnul : (0 : UInt8) ∉ name) (hclose : 0x7D ∉ name)
    (hnamed : name ≠ []) (hcolon : 0x3A ∉ name) : ListTemplate where
  text := ⟨0x78 :: 0x7B :: (0x3F :: (name ++ [0x2A]) ++ [0x7D]), by simp [hnul]⟩
  pieces := [.literal 0x78, .expr ⟨.query, name, .modExplode⟩]
  splits :=
    have hexpr : IsExprText ⟨.query, name, .modExplode⟩ (0x3F :: (name ++ [0x2A])) :=
      ⟨⟨[0x2A], rfl, rfl⟩, hnamed, hcolon, (fun h => by cases h), fun h => by cases h⟩
    .literal (by decide) (by decide) (.expr (by simp [hclose]) hexpr .nil)
  few := by simp [exprs]
  literals := [0x78]
  list := ⟨.query, name, .modExplode⟩
  ends := rfl
  explodes := rfl
  operator := .inr (.inr rfl)

def digitOne : JString := ⟨[0x31], by decide, by decide⟩

def digitTwo : JString := ⟨[0x32], by decide, by decide⟩

def queryV : ListTemplate :=
  charAndQuery nameV.bytes nameV.noNul (by decide) (by decide) (by decide)

theorem match_list_queryV :
    ∃ uri, @mcpUriTemplateExpand zeroFormat (some queryV.text)
        (some (object [(nameV, array [string digitOne, string digitTwo])])) true = (.ok, some uri) ∧
      mcpUriTemplateMatch (some queryV.text) (some uri) true =
        (.ok, some (object [(nameV, array [string digitOne, string digitTwo])])) := by
  have hassigns : Assigns (object [(nameV, array [string digitOne, string digitTwo])]) queryV.list
      (nameV, array ([digitOne, digitTwo].map string)) := ⟨by decide, rfl, rfl⟩
  obtain ⟨uri, huri, hiff⟩ :=
    @ListTemplate.match_list_iff queryV zeroFormat _ _ _ (cons_ne_nil _ _) hassigns
  exact ⟨uri, huri, hiff.mpr fun _ hname => absurd hname (by decide)⟩

def nameAmpersand : JString := ⟨[0x61, 0x26, 0x62], by decide, by decide⟩

def queryAmpersand : ListTemplate :=
  charAndQuery nameAmpersand.bytes nameAmpersand.noNul (by decide) (by decide) (by decide)

/-- The texts `1`, `a` and `b=2` come back for the items `1` and `2`. -/
theorem match_list_queryAmpersand :
    Assigns (object [(nameAmpersand, array [string digitOne, string digitTwo])])
        queryAmpersand.list (nameAmpersand, array ([digitOne, digitTwo].map string)) ∧
      @mcpUriTemplateExpand zeroFormat (some queryAmpersand.text)
        (some (object [(nameAmpersand, array [string digitOne, string digitTwo])])) true =
          (.ok, some ⟨[0x78, 0x3F, 0x61, 0x26, 0x62, 0x3D, 0x31, 0x26, 0x61, 0x26, 0x62, 0x3D,
            0x32], by decide⟩) ∧
      mcpUriTemplateMatch (some queryAmpersand.text)
        (some ⟨[0x78, 0x3F, 0x61, 0x26, 0x62, 0x3D, 0x31, 0x26, 0x61, 0x26, 0x62, 0x3D, 0x32],
          by decide⟩) true =
          (.ok, some (object [(nameAmpersand, array [string digitOne,
            string ⟨[0x61], by decide, by decide⟩,
            string ⟨[0x62, 0x3D, 0x32], by decide, by decide⟩])])) :=
  ⟨⟨by decide, rfl, rfl⟩, rfl, rfl⟩

end Mcpkit.Protocol.UriTemplate
