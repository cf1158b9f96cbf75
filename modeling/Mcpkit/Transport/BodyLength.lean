import Mcpkit.Transport.AsyncServer

/-!
# Where a request ends

Two scanners decide how long the body of a request is.  The server takes the first line, up to a
line feed, that begins with `Content-Length:`.  The request parser splits the header block at
carriage return and line feed, trims the name in front of the colon and takes the first field of
that name.

They may pick different lines.  If they pick the same one, they read the same number: white space
that only one of them would skip cannot stand inside the value.
-/

namespace Mcpkit.Transport.Async

open Json List Option Nat Prod Utf8 Int

/-- The text has white space, a sign and digits in front of something else. -/
structure IsNumeral (s sign digits rest : Bytes) : Prop where
  split : ∃ space, (∀ c ∈ space, isSpace c = true) ∧ s = space ++ (sign ++ (digits ++ rest))
  sign : sign = [] ∨ sign = [0x2D] ∨ sign = [0x2B]
  nonempty : digits ≠ []
  digits : ∀ c ∈ digits, isDigit c = true
  rest : HeadIs (fun c => !isDigit c) rest

def magnitude (digits : Bytes) : Nat := digits.foldl (fun v c => v * 10 + (c.toNat - 0x30)) 0

variable {c : UInt8} {v k : Nat} {head : Bytes}

theorem isSpace_of_isDigit : ∀ {c : UInt8}, isDigit c = true → isSpace c = false :=
  @(forall_byte (by decide +kernel))

theorem ne_sign_of_isDigit (h : isDigit c = true) : c ≠ 0x2D ∧ c ≠ 0x2B := by
  refine ⟨?_, ?_⟩ <;> rintro rfl <;> exact absurd h (by decide)

namespace IsNumeral

variable {s sign digits rest : Bytes}

theorem append (h : IsNumeral s sign digits []) {t : Bytes}
    (ht : HeadIs (fun c => !isDigit c) t) : IsNumeral (s ++ t) sign digits t := by
  obtain ⟨space, hspace, hs⟩ := h.split
  refine ⟨⟨space, hspace, ?_⟩, h.sign, h.nonempty, h.digits, ht⟩
  rw [hs]
  simp

section

variable (h : IsNumeral s sign digits rest)
include h

theorem space_append {space : Bytes}
    (hspace : ∀ c ∈ space, isSpace c = true) : IsNumeral (space ++ s) sign digits rest := by
  obtain ⟨space', hspace', hs⟩ := h.split
  refine ⟨⟨space ++ space', ?_, ?_⟩, h.sign, h.nonempty, h.digits, h.rest⟩
  · intro c hc
    exact (mem_append.mp hc).elim (hspace c) (hspace' c)
  · rw [hs, append_assoc]

theorem headIs_sign : HeadIs (fun c => !isSpace c) (sign ++ (digits ++ rest)) := by
  obtain ⟨d, ds, hdigits⟩ := exists_cons_of_ne_nil h.nonempty
  have hd : isDigit d = true := h.digits d (hdigits ▸ mem_cons_self)
  rcases h.sign with hsign | hsign | hsign <;> rw [hsign]
  · rw [hdigits, nil_append, cons_append, headIs_cons, isSpace_of_isDigit hd]
    rfl
  · exact headIs_cons.mpr rfl
  · exact headIs_cons.mpr rfl

theorem dropWhile_isSpace : s.dropWhile isSpace = sign ++ (digits ++ rest) := by
  obtain ⟨space, hspace, hs⟩ := h.split
  rw [hs, dropWhile_of_all hspace h.headIs_sign]

theorem head?_eq_minus : (sign ++ (digits ++ rest)).head? = some 0x2D ↔ sign = [0x2D] := by
  obtain ⟨d, ds, hdigits⟩ := exists_cons_of_ne_nil h.nonempty
  have hd := ne_sign_of_isDigit (h.digits d (hdigits ▸ mem_cons_self))
  rcases h.sign with hsign | hsign | hsign <;> simp [hsign, hdigits, hd.1]

theorem skip_sign :
    (if (sign ++ (digits ++ rest)).head? = some 0x2D ∨ (sign ++ (digits ++ rest)).head? = some 0x2B
      then (sign ++ (digits ++ rest)).drop 1 else sign ++ (digits ++ rest)) = digits ++ rest := by
  obtain ⟨d, ds, hdigits⟩ := exists_cons_of_ne_nil h.nonempty
  have hd := ne_sign_of_isDigit (h.digits d (hdigits ▸ mem_cons_self))
  rcases h.sign with hsign | hsign | hsign <;> simp [hsign, hdigits, hd.1, hd.2]

theorem strtoul_eq : strtoul s = some (if 2 ^ 64 ≤ magnitude digits then 2 ^ 64 - 1
      else if sign = [0x2D] then (2 ^ 64 - magnitude digits) % 2 ^ 64 else magnitude digits,
      rest) := by
  unfold strtoul
  simp only [h.dropWhile_isSpace, h.skip_sign]
  simp only [h.head?_eq_minus, takeWhile_of_all h.digits h.rest, dropWhile_of_all h.digits h.rest,
    if_neg h.nonempty]
  rfl

theorem strtol_eq : strtol s = some (if sign = [0x2D] then max (-(magnitude digits : Int)) (-2 ^ 63)
      else min (magnitude digits : Int) (2 ^ 63 - 1)) := by
  unfold strtol
  simp only [h.dropWhile_isSpace, h.skip_sign]
  simp only [h.head?_eq_minus, takeWhile_of_all h.digits h.rest, if_neg h.nonempty]
  rfl

theorem strtol_eq_strtoul {c : Int} (hv : v < 2 ^ 63)
    (hc : 0 ≤ c) (hstrtol : strtol s = some c) (hstrtoul : (strtoul s).map fst = some v)
    (hle : c < 2 ^ 63 - 1) : c = v := by
  rw [h.strtol_eq, Option.some.injEq] at hstrtol
  rw [h.strtoul_eq, map_some, Option.some.injEq] at hstrtoul
  dsimp only at hstrtoul
  split at hstrtol <;> split at hstrtoul <;> omega

end

end IsNumeral

theorem exists_sign (s : Bytes) :
    ∃ sign, (sign = [] ∨ sign = [0x2D] ∨ sign = [0x2B]) ∧
      s = sign ++ if s.head? = some 0x2D ∨ s.head? = some 0x2B then s.drop 1 else s := by
  by_cases hminus : s.head? = some 0x2D
  · refine ⟨[0x2D], .inr (.inl rfl), ?_⟩
    rw [if_pos (.inl hminus), drop_one]
    exact eq_cons_of_mem_head? hminus
  by_cases hplus : s.head? = some 0x2B
  · refine ⟨[0x2B], .inr (.inr rfl), ?_⟩
    rw [if_pos (.inr hplus), drop_one]
    exact eq_cons_of_mem_head? hplus
  · refine ⟨[], .inl rfl, ?_⟩
    rw [if_neg (not_or.mpr ⟨hminus, hplus⟩), nil_append]

variable {s buf : Bytes} {hsEnd : Nat} {req : HttpRequest}

theorem isNumeral_of_strtoul {rest : Bytes} (h : strtoul s = some (v, rest)) :
    ∃ sign digits, IsNumeral s sign digits rest := by
  obtain ⟨space, hs, hspace, -⟩ := dropWhile_cut isSpace s
  obtain ⟨sign, hsign, hsplit⟩ := exists_sign (s.dropWhile isSpace)
  unfold strtoul at h
  simp only at h
  generalize (if (s.dropWhile isSpace).head? = some 0x2D ∨
    (s.dropWhile isSpace).head? = some 0x2B then (s.dropWhile isSpace).drop 1
    else s.dropWhile isSpace) = unsigned at h hsplit
  by_cases hdigits : unsigned.takeWhile isDigit = []
  · rw [if_pos hdigits] at h
    cases h
  rw [if_neg hdigits, Option.some.injEq, mk.injEq] at h
  obtain ⟨-, rfl⟩ := h
  refine ⟨sign, unsigned.takeWhile isDigit, ⟨space, hspace, ?_⟩, hsign, hdigits, ?_, ?_⟩
  · rwa [takeWhile_append_dropWhile, ← hsplit]
  · intro c hc
    exact mem_takeWhile_imp hc
  · obtain ⟨-, -, -, hrest⟩ := dropWhile_cut isDigit unsigned
    exact hrest

theorem exists_trim (raw : Bytes) :
    ∃ lead trail, (∀ c ∈ lead, isBlank c = true) ∧ (∀ c ∈ trail, isBlank c = true) ∧
      raw = lead ++ (trim raw ++ trail) := by
  obtain ⟨lead, hlead, hblank, -⟩ := dropWhile_cut isBlank raw
  obtain ⟨trail, htrail, hblank', -⟩ := dropWhile_cut isBlank (raw.dropWhile isBlank).reverse
  refine ⟨lead, trail.reverse, hblank, ?_, ?_⟩
  · intro c hc
    exact hblank' c (mem_reverse.mp hc)
  · rwa [trim, ← reverse_append, ← htrail, reverse_reverse]

theorem isSpace_of_isBlank : ∀ {c : UInt8}, isBlank c = true → isSpace c = true :=
  @(forall_byte (by decide +kernel))

theorem isDigit_of_isBlank : ∀ {c : UInt8}, isBlank c = true → isDigit c = false :=
  @(forall_byte (by decide +kernel))

theorem exists_behind_cString_trim (raw tail : Bytes) :
    ∃ lead behind, (∀ c ∈ lead, isSpace c = true) ∧ HeadIs (fun c => !isDigit c) behind ∧
      raw ++ 0x0D :: tail = lead ++ (cString (trim raw) ++ behind) := by
  obtain ⟨lead, trail, hlead, htrail, hraw⟩ := exists_trim raw
  obtain ⟨str, hstr, -, hzero⟩ := dropWhile_cut (· ≠ 0) (trim raw)
  refine ⟨lead, (trim raw).dropWhile (· ≠ 0) ++ (trail ++ 0x0D :: tail), ?_, ?_, ?_⟩
  · intro c hc
    exact isSpace_of_isBlank (hlead c hc)
  · cases hcut : (trim raw).dropWhile (· ≠ 0) with
    | cons c cs =>
      rw [hcut, headIs_cons] at hzero
      have hc : c = 0 := by simpa using hzero
      rw [hc]
      exact headIs_cons.mpr rfl
    | nil =>
      cases trail with
      | nil => exact headIs_cons.mpr rfl
      | cons c cs =>
        refine headIs_cons.mpr ?_
        rw [isDigit_of_isBlank (htrail c mem_cons_self)]
        rfl
  · have hall : cString (trim raw) ++ (trim raw).dropWhile (· ≠ 0) = trim raw :=
      takeWhile_append_dropWhile
    conv_lhs => rw [hraw]
    simp only [append_assoc]
    rw [← append_assoc (cString _), hall]

theorem strtoul_of_contentLength_eq {value : Bytes} (h : contentLength value = some v) :
    strtoul value = some (v, []) := by
  unfold contentLength at h
  split at h
  next hread => rw [hread, Option.some.inj h]
  · cases h

variable {raw line : Bytes} {j i m headerLen : Nat}

theorem strtoul_of_contentLength (h : contentLength (cString (trim raw)) = some v) (tail : Bytes) :
    (strtoul (raw ++ 0x0D :: tail)).map fst = some v := by
  have hvalue := strtoul_of_contentLength_eq h
  obtain ⟨sign, digits, hnumeral⟩ := isNumeral_of_strtoul hvalue
  obtain ⟨lead, behind, hlead, hbehind, hsplit⟩ := exists_behind_cString_trim raw tail
  have hlong : IsNumeral (raw ++ 0x0D :: tail) sign digits behind :=
    hsplit ▸ (hnumeral.append hbehind).space_append hlead
  rw [hnumeral.strtoul_eq, Option.some.injEq, mk.injEq] at hvalue
  rw [hlong.strtoul_eq, map_some, hvalue.1]

/-- A line of the server starts here: at the front, or behind a line feed. -/
def startsLine (head : Bytes) (i : Nat) : Bool := i == 0 || head[i - 1]? == some 0x0A

/-- The position of the line that the server picks in a header block. -/
def scannedLine (head : Bytes) : Option Nat :=
  (List.range head.length).find? fun i => startsLine head i && isContentLength (head.drop i)

/-- The number behind the colon of that line, which may run past it; zero without such a line. -/
def scannedLength (buf : Bytes) (headerLen : Nat) : Option Int :=
  match scannedLine (buf.take headerLen) with
  | none => some 0
  | some i => strtol (buf.drop (i + 15))

theorem length_of_isContentLength (h : isContentLength s = true) : 15 ≤ s.length := by
  rw [isContentLength, headerNameEq, beq_iff_eq] at h
  have hlen := congrArg List.length h
  rw [length_map, length_map, length_take] at hlen
  have hname : (text "Content-Length:").length = 15 := by decide +kernel
  omega

theorem isContentLength_append (h : isContentLength s = true) (t : Bytes) :
    isContentLength (s ++ t) = true := by
  rwa [isContentLength, take_append_of_le_length (length_of_isContentLength h)]

theorem notMem_of_isContentLength (h : isContentLength s = true) :
    (0x0A : UInt8) ∉ s.take 15 ∧ (0x20 : UInt8) ∉ s.take 15 := by
  rw [isContentLength, headerNameEq, beq_iff_eq] at h
  have hmem : ∀ c ∈ s.take 15, tolower c ∈ (text "Content-Length:").map tolower :=
    fun c hc => h ▸ mem_map_of_mem hc
  exact ⟨fun hlf => absurd (hmem _ hlf) (by decide +kernel),
    fun hblank => absurd (hmem _ hblank) (by decide +kernel)⟩

theorem isContentLength_takeWhile (s : Bytes) :
    isContentLength (s.takeWhile (· ≠ 0x0A)) = isContentLength s := by
  have hpre : s.takeWhile (· ≠ 0x0A) <+: s := takeWhile_prefix _
  rw [Bool.eq_iff_iff]
  constructor
  · intro h
    obtain ⟨rest, hrest⟩ := hpre
    rw [← hrest]
    exact isContentLength_append h rest
  intro h
  -- the first fifteen bytes lie in the line
  have htake : ∀ c ∈ s.take 15, (decide (c ≠ 0x0A)) = true := by
    intro c hc
    rw [decide_eq_true_eq]
    rintro rfl
    exact (notMem_of_isContentLength h).1 hc
  have hsplit : s.takeWhile (· ≠ 0x0A) = s.take 15 ++ (s.drop 15).takeWhile (· ≠ 0x0A) := by
    conv_lhs => rw [← take_append_drop 15 s]
    exact takeWhile_append_of_pos htake
  have hlen : (s.take 15).length = 15 := by
    rw [length_take]
    exact min_eq_left (length_of_isContentLength h)
  rwa [isContentLength, hsplit, take_left' hlen]

theorem startsLine_eq_false (hkj : k < j)
    (hj : j ≤ k + ((head.drop k).takeWhile (· ≠ 0x0A)).length) : startsLine head j = false := by
  have hlt : j - 1 - k < ((head.drop k).takeWhile (· ≠ 0x0A)).length := by omega
  have hget : head[j - 1]? = some (((head.drop k).takeWhile (· ≠ 0x0A))[j - 1 - k]) := by
    rw [← prefix_iff_getElem?.mp ( takeWhile_prefix _) _ hlt, getElem?_drop]
    congr 1
    omega
  have hne := mem_takeWhile_imp (getElem_mem hlt)
  rw [decide_eq_true_eq] at hne
  rw [startsLine, hget, Bool.or_eq_false_iff, beq_eq_false_iff_ne, beq_eq_false_iff_ne]
  exact ⟨by omega, fun h => hne (Option.some.inj h)⟩

theorem startsLine_next (hlt : ((head.drop k).takeWhile (· ≠ 0x0A)).length < head.length - k) :
    startsLine head (k + ((head.drop k).takeWhile (· ≠ 0x0A)).length + 1) = true := by
  have hsplit : head.drop k =
      (head.drop k).takeWhile (· ≠ 0x0A) ++ (head.drop k).dropWhile (· ≠ 0x0A) :=
    takeWhile_append_dropWhile.symm
  obtain ⟨-, -, -, hlf⟩ := dropWhile_cut (· ≠ 0x0A) (head.drop k)
  cases hrest : (head.drop k).dropWhile (· ≠ 0x0A) with
  | nil =>
    have hlen := congrArg List.length hsplit
    rw [hrest, append_nil, length_drop] at hlen
    omega
  | cons c rest =>
    rw [hrest, headIs_cons] at hlf
    have hc : c = 0x0A := by simpa using hlf
    have hget : ((head.drop k).takeWhile (· ≠ 0x0A) ++ c :: rest)[
        ((head.drop k).takeWhile (· ≠ 0x0A)).length]? = some c := by
      rw [getElem?_append_right (Nat.le_refl _), Nat.sub_self]
      rfl
    rw [← hrest, ← hsplit, getElem?_drop] at hget
    rw [startsLine, Nat.add_sub_cancel, hget, hc, beq_self_eq_true, Bool.or_true]

theorem contentLengthLoop_eq (buf : Bytes) (headerLen : Nat) (hle : headerLen ≤ buf.length) :
    ∀ fuel k, k ≤ headerLen → headerLen - k < fuel → startsLine (buf.take headerLen) k = true →
      (∀ j < k, (startsLine (buf.take headerLen) j &&
        isContentLength ((buf.take headerLen).drop j)) = false) →
      contentLengthLoop fuel (buf.drop k) (headerLen - k) =
        (scannedLength buf headerLen).getD (-1) := by
  intro fuel
  induction fuel with
  | zero => intro k _ hfuel; omega
  | succ fuel ih =>
    intro k hk hfuel hstart hpassed
    have hhead : (buf.take headerLen).length = headerLen := length_take_of_le hle
    rw [contentLengthLoop]
    simp only [← drop_take, isContentLength_takeWhile]
    split
    next hline =>
      -- this is the line
      have hlen := length_of_isContentLength hline
      rw [length_drop, hhead] at hlen
      have hpick : scannedLine (buf.take headerLen) = some k := by
        refine find?_range_eq_some.mpr ⟨?_, ?_, ?_⟩
        · rw [hstart, hline]
          rfl
        · rw [mem_range, hhead]
          omega
        · intro j hj
          rw [hpassed j hj]
          rfl
      rw [scannedLength, hpick, drop_drop]
    next hline =>
      have hnext : ∀ j ≤ k + (((buf.take headerLen).drop k).takeWhile (· ≠ 0x0A)).length,
          (startsLine (buf.take headerLen) j &&
            isContentLength ((buf.take headerLen).drop j)) = false := by
        intro j hj
        rcases lt_trichotomy j k with hjk | rfl | hjk
        · exact hpassed j hjk
        · rw [Bool.eq_false_iff.mpr hline, Bool.and_false]
        · rw [startsLine_eq_false hjk hj, Bool.false_and]
      split
      next hlast =>
        have hpick : scannedLine (buf.take headerLen) = none := by
          refine find?_range_eq_none.mpr ?_
          intro j hj
          rw [hhead] at hj
          rw [hnext j (by omega)]
          rfl
        rw [scannedLength, hpick]
        rfl
      next hlast =>
        have hlen :
            (((buf.take headerLen).drop k).takeWhile (· ≠ 0x0A)).length ≤ headerLen - k := by
          have hpre := ( takeWhile_prefix (l := (buf.take headerLen).drop k)
            (fun c => decide (c ≠ 0x0A))).length_le
          rwa [length_drop, hhead] at hpre
        rw [drop_drop, Nat.sub_sub]
        refine ih _ (by omega) (by omega) ?_ ?_
        · exact startsLine_next (by rw [hhead]; omega)
        · intro j hj
          exact hnext j (by omega)

/-- A field starts here: behind the end of the request line or of another field. -/
def startsField (head : Bytes) (i : Nat) : Bool :=
  2 ≤ i && head[i - 2]? == some 0x0D && head[i - 1]? == some 0x0A

def fieldName (s : Bytes) : Bytes := cString (trim (s.takeWhile (· ≠ 0x3A)))

def behindColon (s : Bytes) : Bytes := (s.dropWhile (· ≠ 0x3A)).drop 1

/-- The position of the line that the parser picks in a header block. -/
def fieldLine (head : Bytes) : Option Nat :=
  (List.range (head.length - 4)).find? fun i =>
    startsField head i && headerNameEq (fieldName (head.drop i)) "Content-Length"

def fieldLength (buf : Bytes) (headerLen : Nat) : Option Nat :=
  match fieldLine (buf.take headerLen) with
  | none => some 0
  | some i => (strtoul (behindColon (buf.drop i))).map fst

theorem startsField_iff : startsField head i = true ↔ 2 ≤ i ∧ crlf <+: head.drop (i - 2) := by
  have hcrlf : ∀ l : Bytes, crlf <+: l ↔ l[0]? = some 0x0D ∧ l[1]? = some 0x0A := by
    intro l
    rcases l with _ | ⟨a, _ | ⟨b, rest⟩⟩
    · simp [crlf]
    · simp [crlf]
    · simp only [crlf, cons_prefix_cons, nil_prefix, and_true, getElem?_cons_zero,
        getElem?_cons_succ, Option.some.injEq]
      exact and_congr eq_comm eq_comm
  simp only [startsField, Bool.and_eq_true, decide_eq_true_eq, beq_iff_eq, hcrlf,
    getElem?_drop, add_zero, and_assoc]
  refine and_congr_right ?_
  intro hi
  rw [show i - 2 + 1 = i - 1 by omega]

theorem firstOccurrence_crlf_append {block : Bytes} (h : findCrlf block = none) :
    List.firstOccurrence crlf (block ++ crlfCrlf) = some block.length := by
  have hnone := firstOccurrence_eq_none_iff.mp h
  refine firstOccurrence_eq_some_iff.mpr ⟨?_, ?_⟩
  · rw [drop_left]
    exact ⟨crlf, rfl⟩
  intro j hj hpre
  rw [drop_append_of_le_length (le_of_lt hj)] at hpre
  rcases hsuffix : block.drop j with _ | ⟨a, _ | ⟨b, rest⟩⟩
  · rw [drop_eq_nil_iff] at hsuffix
    omega
  · rw [hsuffix] at hpre
    simp [crlf, crlfCrlf, prefix_iff_eq_take] at hpre
  rw [hsuffix] at hpre
  refine hnone j ?_
  rw [hsuffix]
  exact prefix_of_prefix_length_le hpre ⟨crlfCrlf, rfl⟩ (by simp [crlf])

theorem firstOccurrence_crlf_drop (hk : k ≤ hsEnd) (hend : head.drop hsEnd = crlfCrlf)
    (hle : hsEnd ≤ head.length) :
    List.firstOccurrence crlf (head.drop k) =
      some ((findCrlf ((head.take hsEnd).drop k)).getD ((head.take hsEnd).drop k).length) := by
  have hsplit : head.drop k = (head.take hsEnd).drop k ++ crlfCrlf := by
    conv_lhs => rw [← take_append_drop hsEnd head, hend]
    rw [drop_append_of_le_length (by rw [length_take]; omega)]
  rw [hsplit]
  cases hline : findCrlf ((head.take hsEnd).drop k) with
  | none => exact firstOccurrence_crlf_append hline
  | some m => exact firstOccurrence_append hline _

theorem exists_line (hk : k ≤ hsEnd) (hend : head.drop hsEnd = crlfCrlf)
    (hlen : head.length = hsEnd + 4) :
    ∃ line tail, line = ((head.take hsEnd).drop k).take
        ((findCrlf ((head.take hsEnd).drop k)).getD ((head.take hsEnd).drop k).length) ∧
      head.drop k = line ++ 0x0D :: 0x0A :: tail ∧
      List.firstOccurrence crlf (head.drop k) = some line.length := by
  have hfirst := firstOccurrence_crlf_drop hk hend (by omega)
  obtain ⟨⟨tail, htail⟩, -⟩ := firstOccurrence_eq_some_iff.mp hfirst
  have hle : (findCrlf ((head.take hsEnd).drop k)).getD ((head.take hsEnd).drop k).length ≤
      ((head.take hsEnd).drop k).length := by
    cases hcrlf : findCrlf ((head.take hsEnd).drop k) with
    | none => exact le_refl _
    | some m =>
      have hin := add_length_le_of_firstOccurrence hcrlf
      exact le_trans (le_add_right _ _) hin
  generalize (findCrlf ((head.take hsEnd).drop k)).getD ((head.take hsEnd).drop k).length = m at *
  refine ⟨_, tail, rfl, ?_, ?_⟩
  · have htake : ((head.take hsEnd).drop k).take m = (head.drop k).take m := by
      rw [length_drop, length_take] at hle
      rw [drop_take, take_take, min_eq_left (by omega)]
    rw [htake]
    conv_lhs => rw [← take_append_drop m (head.drop k), ← htail]
    rfl
  · rw [hfirst, length_take_of_le hle]

theorem startsField_eq_false (hline : List.firstOccurrence crlf (head.drop k) = some m)
    (hstart : startsField head k = true) (hkj : k < j) (hj : j ≤ k + m + 1) :
    startsField head j = false := by
  rw [Bool.eq_false_iff]
  intro hother
  obtain ⟨-, hpre⟩ := startsField_iff.mp hother
  by_cases hnext : j = k + 1
  · -- the byte in front of the field is a line feed
    obtain ⟨hk, hpre'⟩ := startsField_iff.mp hstart
    obtain ⟨t, ht⟩ := hpre
    obtain ⟨t', ht'⟩ := hpre'
    have hlf : head[k - 1]? = some 0x0A := by
      rw [show k - 1 = k - 2 + 1 by omega, ← getElem?_drop, ← ht']
      rfl
    have hcr : head[k - 1]? = some 0x0D := by
      rw [show k - 1 = j - 2 + 0 by omega, ← getElem?_drop, ← ht]
      rfl
    rw [hlf] at hcr
    exact absurd hcr (by decide)
  · apply (firstOccurrence_eq_some_iff.mp hline).2 (j - 2 - k) (by omega)
    rwa [drop_drop, show k + (j - 2 - k) = j - 2 by omega]

theorem startsField_next (hline : List.firstOccurrence crlf (head.drop k) = some m) :
    startsField head (k + m + 2) = true := by
  refine startsField_iff.mpr ⟨by omega, ?_⟩
  rw [Nat.add_sub_cancel, ← drop_drop]
  exact (firstOccurrence_eq_some_iff.mp hline).1

/-- What the parser has read for the length of the body: the value of the line that it picks. -/
def FieldReads (head : Bytes) : Option Bytes → Prop
  | none => fieldLine head = none
  | some value => ∃ i raw tail, fieldLine head = some i ∧
      behindColon (head.drop i) = raw ++ 0x0D :: tail ∧ value = cString (trim raw)

theorem parseHeaderLine_eq_some {header : Header} (h : parseHeaderLine line = some header) :
    0x3A ∈ line ∧ header.name = fieldName line ∧
      header.value = cString (trim (behindColon line)) := by
  unfold parseHeaderLine splitAtByte at h
  split at h
  · cases h
  split at h
  · cases h
  next name value hsplit =>
    split at hsplit
    next hcolon =>
      cases hsplit
      split at h
      · cases h
      · cases h
        exact ⟨hcolon, rfl, rfl⟩
    · cases hsplit

theorem split_colon (hcolon : 0x3A ∈ line) (rest : Bytes) :
    (line ++ rest).takeWhile (· ≠ 0x3A) = line.takeWhile (· ≠ 0x3A) ∧
      behindColon (line ++ rest) = behindColon line ++ rest := by
  obtain ⟨name, hname, hall, hhead⟩ := dropWhile_cut (· ≠ 0x3A) line
  cases hvalue : line.dropWhile (· ≠ 0x3A) with
  | nil =>
    have hnot := hall 0x3A (by rwa [hname, hvalue, append_nil] at hcolon)
    exact absurd hnot (by decide)
  | cons c value =>
    rw [hvalue] at hname hhead
    subst hname
    have hhead' : HeadIs (fun b => !decide (b ≠ 0x3A)) (c :: (value ++ rest)) :=
      headIs_cons.mpr (headIs_cons.mp hhead)
    rw [behindColon, behindColon, append_assoc, cons_append]
    rw [takeWhile_of_all hall hhead, takeWhile_of_all hall hhead', dropWhile_of_all hall hhead,
      dropWhile_of_all hall hhead']
    exact ⟨rfl, rfl⟩

theorem findHeader_cons (header : Header) (headers : List Header) (name : String) :
    findHeader (header :: headers) name =
      if headerNameEq header.name (text name) then some header.value
      else findHeader headers name := by
  rw [findHeader, findHeader, find?_cons]
  split
  next h => rw [if_pos h]; rfl
  next h => rw [if_neg (by rw [h]; decide)]

theorem fieldReads_findHeader (hend : head.drop hsEnd = crlfCrlf) (hlen : head.length = hsEnd + 4) :
    ∀ fuel n k headers, parseHeaderLines fuel n ((head.take hsEnd).drop k) = some headers →
      hsEnd - k < fuel → startsField head k = true →
      (∀ j < k, (startsField head j &&
        headerNameEq (fieldName (head.drop j)) "Content-Length") = false) →
      FieldReads head (findHeader headers "Content-Length") := by
  intro fuel
  induction fuel with
  | zero => intro n k headers _ hfuel; omega
  | succ fuel ih =>
    intro n k headers hparse hfuel hstart hpassed
    have hblock : ((head.take hsEnd).drop k).length = hsEnd - k := by
      rw [length_drop, length_take]
      omega
    rw [parseHeaderLines] at hparse
    split at hparse
    next hempty =>
      rw [hempty] at hblock
      cases hparse
      refine find?_range_eq_none.mpr ?_
      intro j hj
      rw [hpassed j (by rw [length_nil] at hblock; omega)]
      rfl
    next hne =>
      have hk : k < hsEnd := by
        have hpos := length_pos_iff.mpr hne
        omega
      obtain ⟨line, tail, hline, hsplit, hfirst⟩ := exists_line (le_of_lt hk) hend hlen
      rw [← hline] at hparse
      cases hheader : parseHeaderLine line with
      | none => simp [hheader] at hparse
      | some header =>
        simp only [hheader] at hparse
        split at hparse
        · cases hparse
        obtain ⟨rest, hrest, rfl⟩ := map_eq_some_iff.mp hparse
        obtain ⟨hcolon, hname, hvalue⟩ := parseHeaderLine_eq_some hheader
        have hname' : header.name = fieldName (head.drop k) := by
          rw [hname, hsplit, fieldName, fieldName, (split_colon hcolon _).1]
        rw [findHeader_cons]
        split
        next hmatch =>
          refine ⟨k, behindColon line, 0x0A :: tail, ?_, ?_, hvalue⟩
          · refine find?_range_eq_some.mpr ⟨?_, ?_, ?_⟩
            · rw [hstart, ← hname', hmatch]
              rfl
            · rw [mem_range]
              omega
            · intro j hj
              rw [hpassed j hj]
              rfl
          · rw [hsplit, (split_colon hcolon _).2]
        next hmatch =>
          rw [drop_drop] at hrest
          refine ih _ _ _ hrest (by omega) (startsField_next hfirst) ?_
          intro j hj
          rcases lt_trichotomy j k with hjk | rfl | hjk
          · exact hpassed j hjk
          · rw [← hname', Bool.eq_false_iff.mpr hmatch, Bool.and_false]
          · rw [startsField_eq_false hfirst hstart hjk (by omega), Bool.false_and]

theorem colon_mem_of_behindColon (h : behindColon s ≠ []) : 0x3A ∈ s := by
  by_contra hcolon
  apply h
  have hall : ∀ c ∈ s, decide (c ≠ 0x3A) = true := by
    intro c hc
    rw [decide_eq_true_eq]
    rintro rfl
    exact hcolon hc
  rw [behindColon, dropWhile_eq_nil_iff.mpr hall, drop_nil]

theorem behindColon_drop {tail : Bytes}
    (h : behindColon ((buf.take headerLen).drop i) = raw ++ 0x0D :: tail) :
    ∃ tail', behindColon (buf.drop i) = raw ++ 0x0D :: tail' := by
  have hcolon : 0x3A ∈ (buf.take headerLen).drop i := by
    apply colon_mem_of_behindColon
    rw [h]
    exact append_ne_nil_of_right_ne_nil raw (cons_ne_nil _ _)
  refine ⟨tail ++ (buf.drop headerLen).drop (i - (buf.take headerLen).length), ?_⟩
  conv_lhs => rw [← take_append_drop headerLen buf, drop_append]
  rw [(split_colon hcolon _).2, h, append_assoc, cons_append]

theorem drop_headersEnd (hend : findHeadersEnd buf = some hsEnd) :
    (buf.take (hsEnd + 4)).drop hsEnd = crlfCrlf := by
  obtain ⟨⟨rest, hrest⟩, -⟩ := firstOccurrence_eq_some_iff.mp hend
  rw [drop_take, Nat.add_sub_cancel_left, ← hrest]
  rfl

theorem fieldReads_of_parse {lineEnd : Nat} (h : ParsedAs buf req lineEnd hsEnd) :
    FieldReads (buf.take (hsEnd + 4)) (findHeader req.headers "Content-Length") := by
  have hle := findHeadersEnd_le h.headers_end
  have hlen : (buf.take (hsEnd + 4)).length = hsEnd + 4 := length_take_of_le hle
  have hfirst : List.firstOccurrence crlf (buf.take (hsEnd + 4)) = some lineEnd := by
    refine firstOccurrence_left (t := buf.drop (hsEnd + 4)) ?_ ?_
    · rw [take_append_drop]
      exact h.line_end
    · have := h.le
      rw [hlen, crlf, length_cons, length_singleton]
      omega
  have htake : (buf.take (hsEnd + 4)).take hsEnd = buf.take hsEnd := by
    rw [take_take, min_eq_left (le_add_right _ _)]
  have hlines := h.headers
  rw [headerBlock, ← htake] at hlines
  refine fieldReads_findHeader (drop_headersEnd h.headers_end) hlen _ _ _ _ hlines ?_ ?_ ?_
  · rw [length_drop, length_take, hlen]
    omega
  · have hnext := startsField_next (k := 0) hfirst
    rwa [zero_add] at hnext
  intro j hj
  rw [Bool.and_eq_false_iff]
  left
  rw [Bool.eq_false_iff]
  intro hstart
  obtain ⟨hj2, hpre⟩ := startsField_iff.mp hstart
  exact (firstOccurrence_eq_some_iff.mp hfirst).2 (j - 2) (by omega) hpre

theorem fieldLength_eq (hend : findHeadersEnd buf = some hsEnd)
    (hparse : mcpHttpParseRequest buf = some req) :
    fieldLength buf (hsEnd + 4) = some req.body.length := by
  obtain ⟨lineEnd, hsEnd', h⟩ := mcpHttpParseRequest_eq_some_iff.mp hparse
  obtain rfl : hsEnd = hsEnd' := Option.some.inj (hend.symm.trans h.headers_end)
  have hreads := fieldReads_of_parse h
  have hbody := h.body
  cases hvalue : findHeader req.headers "Content-Length" with
  | none =>
    rw [hvalue] at hreads
    rw [parseBody, hvalue] at hbody
    rw [fieldLength, hreads, ← Option.some.inj hbody]
    rfl
  | some value =>
    rw [hvalue] at hreads
    obtain ⟨i, raw, tail, hline, hbehind, rfl⟩ := hreads
    rw [parseBody, hvalue] at hbody
    obtain ⟨tail', htail⟩ := behindColon_drop hbehind
    rw [fieldLength, hline]
    dsimp only
    cases hwant : contentLength (cString (trim raw)) with
    | none => simp [hwant] at hbody
    | some want =>
      simp only [hwant] at hbody
      split at hbody
      · cases hbody
      next hfits =>
        rw [htail, strtoul_of_contentLength hwant, ← Option.some.inj hbody,
          length_take_of_le (by omega)]

theorem tolower_eq_colon : ∀ c : UInt8, tolower c = 0x3A ↔ c = 0x3A :=
  forall_byte (by decide +kernel)

theorem colon_mem_of_isContentLength (h : isContentLength s = true) : 0x3A ∈ s.take 15 := by
  rw [isContentLength, headerNameEq, beq_iff_eq] at h
  have hmem : (0x3A : UInt8) ∈ (s.take 15).map tolower := by
    rw [h]
    decide +kernel
  obtain ⟨c, hc, hlower⟩ := mem_map.mp hmem
  rwa [(tolower_eq_colon c).mp hlower] at hc

theorem behindColon_of_isContentLength (h : isContentLength s = true) :
    behindColon s = s.drop 15 := by
  have hcolon := colon_mem_of_isContentLength h
  have hname : (s.take 15).map tolower = (text "Content-Length:").map tolower := by
    rwa [isContentLength, headerNameEq, beq_iff_eq] at h
  have hbehind : behindColon (s.take 15) = [] := by
    have hdrop := congrArg (List.dropWhile (fun c => decide (c ≠ 0x3A))) hname
    rw [dropWhile_map] at hdrop
    have hpred : ((fun c : UInt8 => decide (c ≠ 0x3A)) ∘ tolower) =
        fun c => decide (c ≠ 0x3A) := by
      funext c
      exact decide_eq_decide.mpr (not_congr (tolower_eq_colon c))
    rw [hpred] at hdrop
    have hlen := congrArg List.length hdrop
    rw [length_map] at hlen
    rw [behindColon, drop_eq_nil_iff, hlen]
    decide +kernel
  conv_lhs => rw [← take_append_drop 15 s]
  rw [(split_colon hcolon _).2, hbehind, nil_append]

/-- What the server has found out when it looks at a request. -/
structure Scanned (buf : Bytes) (hsEnd totalNeeded : Nat) (req : HttpRequest) : Prop where
  headersEnd : findHeadersEnd buf = some hsEnd
  nonneg : 0 ≤ parseHttpContentLength buf (hsEnd + 4)
  le_maxBody : parseHttpContentLength buf (hsEnd + 4) ≤ maxBody
  total : totalNeeded = hsEnd + 4 + (parseHttpContentLength buf (hsEnd + 4)).toNat
  complete : totalNeeded ≤ buf.length
  parsed : mcpHttpParseRequest (buf.take totalNeeded) = some req

theorem scanned_of_scanRequest {totalNeeded : Nat}
    (h : scanRequest buf = .request headerLen totalNeeded req) :
    ∃ hsEnd, headerLen = hsEnd + 4 ∧ Scanned buf hsEnd totalNeeded req := by
  unfold scanRequest at h
  split at h
  · cases h
  next hsEnd hhs =>
    simp only at h
    split at h
    · cases h
    next hnonneg =>
      split at h
      · cases h
      next hmax =>
        split at h
        · cases h
        next hcomplete =>
          split at h
          · cases h
          next req' hparsed =>
            cases h
            exact ⟨hsEnd, rfl, hhs, not_lt.mp hnonneg, not_lt.mp hmax, rfl,
              not_lt.mp hcomplete, hparsed⟩

namespace Scanned

variable {buf : Bytes} {hsEnd totalNeeded : Nat} {req : HttpRequest}

section

variable (h : Scanned buf hsEnd totalNeeded req)
include h

theorem scannedLength_eq :
    scannedLength buf (hsEnd + 4) = some (totalNeeded - (hsEnd + 4) : Int) := by
  have hnonneg := h.nonneg
  have htotal := h.total
  have hloop : parseHttpContentLength buf (hsEnd + 4) =
      (scannedLength buf (hsEnd + 4)).getD (-1) :=
    contentLengthLoop_eq buf (hsEnd + 4) (findHeadersEnd_le h.headersEnd) _ 0 (zero_le _)
      (lt_succ_self _) rfl (by intro j hj; omega)
  rw [hloop] at hnonneg htotal
  cases hlength : scannedLength buf (hsEnd + 4) with
  | none =>
    rw [hlength] at hnonneg
    exact absurd hnonneg (by decide)
  | some v =>
    rw [hlength, getD_some] at hnonneg htotal
    congr 1
    omega

theorem parse_buf : mcpHttpParseRequest buf = some req := by
  conv_lhs => rw [← take_append_drop totalNeeded buf]
  exact mcpHttpParseRequest_append h.parsed _

theorem length_body_le : req.body.length ≤ maxBody := by
  obtain ⟨hs, hhs, hle⟩ := exists_findHeadersEnd h.parsed
  have hend := firstOccurrence_append hhs (buf.drop totalNeeded)
  rw [take_append_drop] at hend
  obtain rfl : hs = hsEnd := Option.some.inj (hend.symm.trans h.headersEnd)
  have hbounds := h.le_maxBody
  have htotal := h.total
  rw [length_take] at hle
  omega

theorem sameNumber_of_sameLine
    (hline : scannedLine (buf.take (hsEnd + 4)) = fieldLine (buf.take (hsEnd + 4))) :
    scannedLength buf (hsEnd + 4) = (fieldLength buf (hsEnd + 4)).map ofNat := by
  have hscanned := h.scannedLength_eq
  have hfield := fieldLength_eq h.headersEnd h.parse_buf
  cases hpick : fieldLine (buf.take (hsEnd + 4)) with
  | none =>
    rw [scannedLength, fieldLength, hline, hpick]
    rfl
  | some i =>
    have hname : isContentLength ((buf.take (hsEnd + 4)).drop i) = true := by
      obtain ⟨hfound, -⟩ := find?_range_eq_some.mp (hline.trans hpick)
      exact (Bool.and_eq_true_iff.mp hfound).2
    have hbehind : behindColon (buf.drop i) = buf.drop (i + 15) := by
      have hsplit : buf.drop i = (buf.take (hsEnd + 4)).drop i ++
          (buf.drop (hsEnd + 4)).drop (i - (buf.take (hsEnd + 4)).length) := by
        rw [← drop_append, take_append_drop]
      rw [← drop_drop]
      apply behindColon_of_isContentLength
      rw [hsplit]
      exact isContentLength_append hname _
    have hread : (strtoul (buf.drop (i + 15))).map fst = some req.body.length := by
      rw [← hbehind]
      rwa [fieldLength, hpick] at hfield
    have hread' : strtol (buf.drop (i + 15)) = some (totalNeeded - (hsEnd + 4) : Int) := by
      rwa [scannedLength, hline, hpick] at hscanned
    obtain ⟨⟨v, rest⟩, hstrtoul, -⟩ := map_eq_some_iff.mp hread
    obtain ⟨sign, digits, hnumeral⟩ := isNumeral_of_strtoul hstrtoul
    have hbody := h.length_body_le
    have hbounds := h.le_maxBody
    have htotal := h.total
    rw [maxBody] at hbounds hbody
    rw [hscanned, hfield, map_some, Option.some.injEq]
    exact hnumeral.strtol_eq_strtoul (by omega) (by omega) hread' hread (by omega)

end

end Scanned

/-- The server accounts for the header block and the body of the request, if and only if the lines
that both scanners pick say the same number; a line that both pick does. -/
theorem totalNeeded_eq_iff {buf : Bytes} {headerLen totalNeeded : Nat} {req : HttpRequest}
    (hscan : scanRequest buf = .request headerLen totalNeeded req) :
    (totalNeeded = headerLen + req.body.length ↔
        scannedLength buf headerLen = (fieldLength buf headerLen).map ofNat) ∧
      (scannedLine (buf.take headerLen) = fieldLine (buf.take headerLen) →
        totalNeeded = headerLen + req.body.length) := by
  obtain ⟨hsEnd, rfl, h⟩ := scanned_of_scanRequest hscan
  have hfield : fieldLength buf (hsEnd + 4) = some req.body.length :=
    fieldLength_eq h.headersEnd h.parse_buf
  have hsame : scannedLength buf (hsEnd + 4) = (fieldLength buf (hsEnd + 4)).map ofNat ↔
      totalNeeded = hsEnd + 4 + req.body.length := by
    rw [h.scannedLength_eq, hfield, map_some, Option.some.injEq, ofNat_eq_natCast]
    have htotal := h.total
    omega
  exact ⟨hsame.symm, fun hline => hsame.mp (h.sameNumber_of_sameLine hline)⟩

/-- A POST with a body of five bytes; the given text stands in front of the name of its length. -/
def fiveBytes (front : Bytes) : Bytes :=
  text "POST / HTTP/1.1" ++ crlf ++ front ++ text "Content-Length: 5" ++ crlfCrlf ++ text "hello"

/-- Behind a bare line feed the server sees a line, and the parser the value of a field. -/
theorem totalNeeded_bareLineFeed :
    ∃ req, scanRequest (fiveBytes (text "X: a" ++ [0x0A])) = .request 43 48 req ∧
      48 ≠ 43 + req.body.length := by
  refine
    ⟨⟨.post, "/", [⟨"X", text "a" ++ [0x0A] ++ text "Content-Length: 5"⟩], []⟩, ?_, ?_⟩
  · decide +kernel
  · decide

theorem totalNeeded_plain :
    scanRequest (fiveBytes []) =
        .request 38 43 ⟨.post, "/", [⟨"Content-Length", "5"⟩], "hello"⟩ ∧
      43 = 38 + (text "hello").length := by
  have hscan : scanRequest (fiveBytes []) =
      .request 38 43 ⟨.post, "/", [⟨"Content-Length", "5"⟩], "hello"⟩ := by
    decide +kernel
  exact ⟨hscan, (totalNeeded_eq_iff hscan).2 (by decide +kernel)⟩

end Mcpkit.Transport.Async
