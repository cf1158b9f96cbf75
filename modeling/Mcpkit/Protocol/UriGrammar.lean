import Mcpkit.Json.Scanner
import Mcpkit.Lib.Decimal
import Mcpkit.Protocol.UriTemplate

/-!
# The grammar of URI templates

A template is a sequence of literal characters and expressions.  An expression is an
operator, a name and a modifier between braces; `parse_var_expr` and the syntax check
of `mcp_uri_template_match` accept these texts and no others.
-/

namespace Mcpkit.Protocol.UriTemplate

open Json JsonValue List Decimal Option Nat

def UriOp.sigil : UriOp → Bytes
  | .simple => []
  | .plus => [0x2B]
  | .hash => [0x23]
  | .slash => [0x2F]
  | .dot => [0x2E]
  | .query => [0x3F]

def IsModifierText : UriModifier → Bytes → Prop
  | .modNone, text => text = []
  | .modExplode, text => text = [0x2A]
  | .modPrefix prefixLen, text =>
    ∃ digits, text = 0x3A :: digits ∧ digits ≠ [] ∧ (∀ d ∈ digits, IsDigit d) ∧
      value digits = prefixLen ∧ 0 < prefixLen ∧ prefixLen ≤ 999999

structure IsExprText (expr : ParsedVarExpr) (text : Bytes) : Prop where
  parts : ∃ modifier, text = expr.op.sigil ++ (expr.name ++ modifier) ∧
    IsModifierText expr.mod modifier
  named : expr.name ≠ []
  noColon : 0x3A ∉ expr.name
  noOperator : expr.op = .simple → expr.name.head?.bind uriOp = none
  noStar : expr.mod = .modNone → expr.name.getLast? ≠ some 0x2A

inductive Piece where
  | literal (c : UInt8)
  | expr (e : ParsedVarExpr)

inductive SplitsInto : Bytes → List Piece → Prop
  | nil : SplitsInto [] []
  | literal {c : UInt8} {p : Bytes} {ps : List Piece} (hopen : c ≠ 0x7B) (hclose : c ≠ 0x7D)
      (h : SplitsInto p ps) : SplitsInto (c :: p) (.literal c :: ps)
  | expr {text p : Bytes} {e : ParsedVarExpr} {ps : List Piece} (hclose : 0x7D ∉ text)
      (he : IsExprText e text) (h : SplitsInto p ps) :
      SplitsInto (0x7B :: (text ++ 0x7D :: p)) (.expr e :: ps)

def exprs : List Piece → List ParsedVarExpr
  | [] => []
  | .literal _ :: ps => exprs ps
  | .expr e :: ps => e :: exprs ps

/-- A syntactically valid template with as many expressions as can be captured. -/
structure Template where
  text : CString
  pieces : List Piece
  splits : SplitsInto text.bytes pieces
  few : (exprs pieces).length ≤ 64

variable {s p : Bytes} {e : ParsedVarExpr} {op : UriOp}

theorem parsePrefixLen_eq_some_iff {lenVal prefixLen : Nat} (hle : lenVal ≤ 999999) :
    parsePrefixLen lenVal s = some prefixLen ↔
      (∀ d ∈ s, IsDigit d) ∧ valueFrom lenVal s = prefixLen ∧
        0 < prefixLen ∧ prefixLen ≤ 999999 := by
  induction s generalizing lenVal with
  | nil =>
    simp only [parsePrefixLen, not_mem_nil, false_imp_iff, implies_true, true_and, valueFrom_nil]
    split <;> grind
  | cons c s ih =>
    have hdigit : IsDigit c ↔ ¬(c < 0x30 ∨ 0x39 < c) := by simp [IsDigit]
    have hgrows := le_valueFrom (lenVal * 10 + (c.toNat - 0x30)) s
    rw [parsePrefixLen, forall_mem_cons, hdigit]
    split
    case isTrue hc => simp [hc]
    case isFalse hc =>
      split
      case isTrue hbig =>
        -- The number only grows, so a rejected one stays too large.
        simp only [reduceCtorEq, false_iff]
        rintro ⟨-, hvalue, -, hsmall⟩
        exact absurd (le_trans hgrows (hvalue.le.trans hsmall)) (by omega)
      case isFalse hbig =>
        rw [ih (by omega), and_iff_right hc]
        rfl

variable {digits name text : Bytes} {fuel : Nat}

theorem takeWhile_ne_append (h : 0x3A ∉ name) :
    (name ++ 0x3A :: digits).takeWhile (· ≠ 0x3A) = name :=
  takeWhile_of_all (fun _ hmem => decide_eq_true (ne_of_mem_of_not_mem hmem h)) (by simp)

theorem dropWhile_ne_append (h : 0x3A ∉ name) :
    (name ++ 0x3A :: digits).dropWhile (· ≠ 0x3A) = 0x3A :: digits :=
  dropWhile_of_all (fun _ hmem => decide_eq_true (ne_of_mem_of_not_mem hmem h)) (by simp)

/-- A name and its modifier, behind the operator. -/
structure IsNameText (expr : ParsedVarExpr) (s : Bytes) : Prop where
  parts : ∃ modifier, s = expr.name ++ modifier ∧ IsModifierText expr.mod modifier
  named : expr.name ≠ []
  noColon : 0x3A ∉ expr.name
  noStar : expr.mod = .modNone → expr.name.getLast? ≠ some 0x2A

theorem isNameText_of_parse (h : parseNameAndModifier op s = some e) :
    e.op = op ∧ IsNameText e s := by
  revert h
  fun_cases parseNameAndModifier op s
  case case1 => simp
  case case2 hstar hok =>
    rintro ⟨⟩
    rw [not_or] at hok
    refine ⟨rfl, ⟨[0x2A], ?_, rfl⟩, hok.2, fun h => hok.1 (dropLast_subset s h), by simp⟩
    exact (dropLast_append_getLast? _ hstar).symm
  case case3 => simp
  case case4 hstar hcolon name digits hok =>
    intro h
    obtain ⟨prefixLen, hlen, rfl⟩ := map_eq_some_iff.mp h
    obtain ⟨before, behind, rfl, hbefore⟩ := eq_append_cons_of_mem hcolon
    have hname : name = before := takeWhile_ne_append hbefore
    have hdigits : digits = behind := congrArg (List.drop 1) (dropWhile_ne_append hbefore)
    rw [hname, hdigits, not_or] at hok
    rw [hdigits, parsePrefixLen_eq_some_iff (zero_le _)] at hlen
    rw [hname]
    exact ⟨rfl, ⟨_, rfl, behind, rfl, hok.2, hlen⟩, hok.1, hbefore, by simp⟩
  case case5 => simp
  case case6 hstar hcolon hne =>
    rintro ⟨⟩
    exact ⟨rfl, ⟨[], (append_nil s).symm, rfl⟩, hne, hcolon, fun _ => hstar⟩

theorem parse_of_isNameText (h : IsNameText e s) : parseNameAndModifier e.op s = some e := by
  obtain ⟨op, name, mod⟩ := e
  obtain ⟨⟨modifier, hs, hmod⟩, hne, hcolon, hstar⟩ := h
  dsimp only at hs hmod hne hcolon hstar ⊢
  subst hs
  cases mod with
  | modNone =>
    obtain rfl : modifier = [] := hmod
    rw [append_nil, parseNameAndModifier, if_neg (hstar rfl), if_neg hcolon, if_neg hne]
  | modExplode =>
    obtain rfl : modifier = [0x2A] := hmod
    have hok : ¬(0x3A ∈ name ++ [0x2A] ∨ (name ++ [0x2A]).dropLast = []) := by simp [hcolon, hne]
    rw [parseNameAndModifier, if_pos getLast?_concat, if_neg hok, dropLast_concat]
  | modPrefix prefixLen =>
    obtain ⟨digits, rfl, hdigits, hlen⟩ := hmod
    have hlast : (name ++ 0x3A :: digits).getLast? ≠ some 0x2A := by
      intro heq
      rw [getLast?_append_of_ne_nil _ (cons_ne_nil _ _), getLast?_cons_of_ne_nil hdigits] at heq
      exact absurd (hlen.1 _ (mem_of_getLast? heq)) (by decide)
    have hok : ¬(name = [] ∨ digits = []) := not_or.mpr ⟨hne, hdigits⟩
    rw [parseNameAndModifier, if_neg hlast, if_pos (by simp), takeWhile_ne_append hcolon,
      dropWhile_ne_append hcolon, drop_one, tail_cons, if_neg hok,
      (parsePrefixLen_eq_some_iff (zero_le _)).mpr hlen, map_some]

theorem sigil_of_uriOp {c : UInt8} (h : uriOp c = some op) : op.sigil = [c] := by
  revert h
  fun_cases uriOp c <;> rintro ⟨⟩ <;> simp_all [UriOp.sigil]

theorem parseVarExpr_sigil_append (hop : op ≠ .simple) (s : Bytes) :
    parseVarExpr (op.sigil ++ s) = parseNameAndModifier op s := by
  cases op with
  | simple => exact absurd rfl hop
  | _ => rfl

theorem parseVarExpr_of_head (h : s.head?.bind uriOp = none) :
    parseVarExpr s = parseNameAndModifier .simple s := by
  cases s with
  | nil => rfl
  | cons first s =>
    have hfirst : uriOp first = none := h
    rw [parseVarExpr, hfirst]

theorem parseVarExpr_eq_some_iff : parseVarExpr text = some e ↔ IsExprText e text := by
  constructor
  · intro h
    cases hop : text.head?.bind uriOp with
    | none =>
      rw [parseVarExpr_of_head hop] at h
      obtain ⟨he, ⟨modifier, rfl, hmod⟩, hne, hcolon, hstar⟩ := isNameText_of_parse h
      refine ⟨⟨modifier, by rw [he]; rfl, hmod⟩, hne, hcolon, fun _ => ?_, hstar⟩
      rwa [head?_append_of_ne_nil _ hne] at hop
    | some op =>
      obtain ⟨first, hfirst, hop⟩ := bind_eq_some_iff.mp hop
      obtain ⟨s, rfl⟩ := head?_eq_some_iff.mp hfirst
      have hsigil := sigil_of_uriOp hop
      have hne : op ≠ .simple := by
        rintro rfl
        cases hsigil
      rw [show first :: s = op.sigil ++ s by rw [hsigil]; rfl] at h ⊢
      rw [parseVarExpr_sigil_append hne] at h
      obtain ⟨rfl, ⟨modifier, rfl, hmod⟩, hnamed, hcolon, hstar⟩ := isNameText_of_parse h
      exact ⟨⟨modifier, rfl, hmod⟩, hnamed, hcolon, fun heq => absurd heq hne, hstar⟩
  · rintro ⟨⟨modifier, rfl, hmod⟩, hne, hcolon, hop, hstar⟩
    have hname : IsNameText e (e.name ++ modifier) := ⟨⟨modifier, rfl, hmod⟩, hne, hcolon, hstar⟩
    by_cases hsimple : e.op = .simple
    · have hhead : (e.name ++ modifier).head?.bind uriOp = none := by
        rw [head?_append_of_ne_nil _ hne]
        exact hop hsimple
      have hparse := parse_of_isNameText hname
      rw [hsimple] at hparse ⊢
      exact (parseVarExpr_of_head hhead).trans hparse
    · rw [parseVarExpr_sigil_append hsimple]
      exact parse_of_isNameText hname

theorem strchrClose_eq_some_iff {next : Bytes} :
    strchrClose s = some (text, next) ↔ s = text ++ 0x7D :: next ∧ 0x7D ∉ text := by
  induction s generalizing text with
  | nil => simp [strchrClose]
  | cons c s ih =>
    rw [strchrClose]
    split
    case isTrue hc =>
      subst hc
      cases text <;> grind
    case isFalse hc =>
      cases text with
      | nil => simp [hc]
      | cons d text =>
        simp only [map_eq_some_iff, Prod.exists, Prod.mk.injEq, List.cons.injEq,
          cons_append, mem_cons, not_or]
        grind

theorem validPattern_of_splitsInto {ps : List Piece} (h : SplitsInto p ps)
    (hfuel : p.length ≤ fuel) : validPattern fuel p = true := by
  induction h generalizing fuel with
  | nil => cases fuel <;> rfl
  | literal hopen hclose h ih =>
    obtain ⟨fuel, rfl⟩ := Nat.exists_eq_add_of_le' (Nat.one_le_of_lt hfuel)
    rw [validPattern, if_neg hopen, if_neg hclose]
    exact ih (le_of_succ_le_succ hfuel)
  | @expr text p e ps hclose he h ih =>
    obtain ⟨fuel, rfl⟩ := Nat.exists_eq_add_of_le' (Nat.one_le_of_lt hfuel)
    have hlen : p.length ≤ fuel := by
      simp only [length_cons, length_append] at hfuel
      omega
    rw [validPattern, if_pos rfl, strchrClose_eq_some_iff.mpr ⟨rfl, hclose⟩]
    simp [parseVarExpr_eq_some_iff.mpr he, ih hlen]

theorem exists_splitsInto_of_validPattern (h : validPattern fuel p = true) :
    ∃ ps, SplitsInto p ps := by
  induction fuel, p using validPattern.induct with
  | case1 p =>
    rw [validPattern, List.isEmpty_iff] at h
    exact ⟨[], h ▸ .nil⟩
  | case2 => exact ⟨[], .nil⟩
  | case3 fuel scan hclose => simp [validPattern, hclose] at h
  | case4 fuel scan text next hclose ih =>
    rw [validPattern, if_pos rfl, hclose, Bool.and_eq_true, isSome_iff_exists] at h
    obtain ⟨⟨e, he⟩, hnext⟩ := h
    obtain ⟨ps, hps⟩ := ih hnext
    obtain ⟨rfl, htext⟩ := strchrClose_eq_some_iff.mp hclose
    exact ⟨_, .expr htext (parseVarExpr_eq_some_iff.mp he) hps⟩
  | case5 fuel scan hopen => simp [validPattern] at h
  | case6 fuel c scan hopen hclose ih =>
    rw [validPattern, if_neg hopen, if_neg hclose] at h
    obtain ⟨ps, hps⟩ := ih h
    exact ⟨_, .literal hopen hclose hps⟩

theorem validPattern_iff : validPattern p.length p = true ↔ ∃ ps, SplitsInto p ps :=
  ⟨exists_splitsInto_of_validPattern, fun ⟨_, h⟩ => validPattern_of_splitsInto h (le_refl _)⟩

end Mcpkit.Protocol.UriTemplate
