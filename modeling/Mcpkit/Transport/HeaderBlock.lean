import Mcpkit.Transport.Http

/-!
# The lines of a header block

The parser splits what stands in front of the blank line at carriage return and line feed.  A text
without this pair is one line to it, whatever else it holds, single carriage returns and line feeds
included.
-/

namespace Mcpkit.Transport

open Json List Option

/-- The text has no end of a line in it. -/
def Unbroken (l : Bytes) : Prop := ¬crlf <:+: l

/-- The lines of a header block: they end at carriage return and line feed. -/
def blockLines : Nat → Bytes → List Bytes
  | 0, _ => []
  | fuel + 1, block =>
    if block = [] then []
    else
      let line := block.take ((findCrlf block).getD block.length)
      line :: blockLines fuel (block.drop (line.length + 2))

variable {l : Bytes} {ls : List Bytes}

theorem Unbroken.findCrlf_skip (h : Unbroken l) {s : Bytes} (hs : s.head? ≠ some 0x0A) :
    findCrlf (l ++ s) = (findCrlf s).map (l.length + ·) :=
  firstOccurrence_append_of_not_infix h hs

theorem Unbroken.findCrlf_append (h : Unbroken l) (rest : Bytes) :
    findCrlf (l ++ (crlf ++ rest)) = some l.length := by
  have hfront : findCrlf (crlf ++ rest) = some 0 :=
    firstOccurrence_cons_eq_some.mpr (.inl ⟨⟨rest, rfl⟩, rfl⟩)
  rw [h.findCrlf_skip (by simp [crlf]), hfront]
  rfl

theorem Unbroken.findCrlf_eq_none (h : Unbroken l) : findCrlf l = none :=
  firstOccurrence_eq_none_iff_not_infix.mpr h

theorem blockLines_intercalate (hls : ∀ l ∈ ls, l ≠ [] ∧ Unbroken l) {fuel : Nat}
    (hfuel : (crlf.intercalate ls).length < fuel) : blockLines fuel (crlf.intercalate ls) = ls := by
  induction ls generalizing fuel with
  | nil =>
    cases fuel with
    | zero => rfl
    | succ fuel => rfl
  | cons l ls ih =>
    obtain ⟨⟨hne, hl⟩, hls⟩ := forall_mem_cons.mp hls
    cases fuel with
    | zero => exact absurd hfuel (Nat.not_lt_zero _)
    | succ fuel =>
      cases ls with
      | nil =>
        rw [intercalate_singleton, blockLines, if_neg hne, hl.findCrlf_eq_none, getD_none,
          take_length]
        dsimp only
        rw [drop_of_length_le (Nat.le_add_right _ _)]
        cases fuel <;> rfl
      | cons l' ls =>
        rw [intercalate_cons_cons] at hfuel ⊢
        rw [append_assoc] at hfuel ⊢
        rw [blockLines, if_neg (append_ne_nil_of_left_ne_nil hne _), hl.findCrlf_append,
          getD_some, take_left]
        dsimp only
        rw [show l.length + 2 = (l ++ crlf).length by simp [crlf], ← append_assoc, drop_left,
          ih hls]
        simp only [length_append, crlf, length_cons, length_nil] at hfuel ⊢
        omega

theorem parseHeaderLines_eq_some_iff {fuel n : Nat} (hn : n ≤ mcpHttpMaxHeaders) {block : Bytes}
    {headers : List Header} :
    parseHeaderLines fuel n block = some headers ↔
      n + (blockLines fuel block).length ≤ mcpHttpMaxHeaders ∧
        (blockLines fuel block).map parseHeaderLine = headers.map some := by
  induction fuel generalizing n block headers with
  | zero => cases headers <;> simp [parseHeaderLines, blockLines, hn]
  | succ fuel ih =>
    rw [parseHeaderLines, blockLines]
    split
    · cases headers <;> simp [hn]
    dsimp only
    rw [map_cons, length_cons]
    cases parseHeaderLine (block.take ((findCrlf block).getD block.length)) with
    | none => cases headers <;> simp
    | some header =>
      dsimp only
      split
      next hfull => exact iff_of_false (by simp) fun h => absurd h.1 (by omega)
      next hroom =>
        rw [map_eq_some_iff]
        simp only [ih (Nat.succ_le_of_lt (Nat.not_le.mp hroom)), Nat.add_right_comm n 1]
        cases headers <;> simp [Nat.add_assoc, and_assoc, and_left_comm]

theorem findHeadersEnd_crlf_append {s : Bytes} (h : ¬crlf <+: s) :
    findHeadersEnd (crlf ++ s) = (findHeadersEnd s).map (2 + ·) := by
  have hcr : ¬crlfCrlf <+: 0x0D :: 0x0A :: s := by
    simp only [crlfCrlf, cons_prefix_cons, true_and]
    exact h
  have hlf : ¬crlfCrlf <+: 0x0A :: s := by
    simp only [crlfCrlf, cons_prefix_cons]
    exact fun h => absurd h.1 (by decide)
  change List.firstOccurrence crlfCrlf (0x0D :: 0x0A :: s) = _
  rw [List.firstOccurrence, if_neg hcr, List.firstOccurrence, if_neg hlf, Option.map_map]
  congr 1
  funext n
  simp only [Function.comp_apply]
  omega

theorem Unbroken.not_prefix (h : Unbroken l) (hne : l ≠ []) {s : Bytes}
    (hs : s.head? ≠ some 0x0A) : ¬crlf <+: l ++ s := by
  intro hpre
  have hfirst : findCrlf (l ++ s) = some 0 :=
    firstOccurrence_eq_some_iff.mpr ⟨hpre, fun j hj => absurd hj (Nat.not_lt_zero j)⟩
  have hskip := h.findCrlf_skip hs
  rw [hfirst, eq_comm, map_eq_some_iff] at hskip
  obtain ⟨n, -, hn⟩ := hskip
  have := length_pos_iff.mpr hne
  omega

theorem findHeadersEnd_lines (hne : ls ≠ []) (hls : ∀ l ∈ ls, l ≠ [] ∧ Unbroken l)
    (rest : Bytes) :
    findHeadersEnd (crlf.intercalate ls ++ (crlfCrlf ++ rest)) =
      some (crlf.intercalate ls).length := by
  have hskip : ∀ l, Unbroken l → ∀ s : Bytes, s.head? ≠ some 0x0A →
      findHeadersEnd (l ++ s) = (findHeadersEnd s).map (l.length + ·) :=
    fun l hl s hs => firstOccurrence_append_of_not_infix hl hs
  induction ls with
  | nil => exact absurd rfl hne
  | cons l ls ih =>
    obtain ⟨⟨-, hl⟩, hls⟩ := forall_mem_cons.mp hls
    cases ls with
    | nil =>
      have hfront : findHeadersEnd (crlfCrlf ++ rest) = some 0 :=
        firstOccurrence_cons_eq_some.mpr (.inl ⟨⟨rest, rfl⟩, rfl⟩)
      rw [intercalate_singleton, hskip l hl _ (by simp [crlfCrlf]), hfront]
      rfl
    | cons l' ls =>
      obtain ⟨hl'ne, hl'⟩ := hls l' mem_cons_self
      -- Behind the line end stands no other one.
      obtain ⟨s, hs, hhead⟩ : ∃ s : Bytes,
          crlf.intercalate (l' :: ls) ++ (crlfCrlf ++ rest) = l' ++ s ∧ s.head? ≠ some 0x0A := by
        cases ls with
        | nil => exact ⟨_, by rw [intercalate_singleton], by simp [crlfCrlf]⟩
        | cons m ms =>
          exact ⟨_, by rw [intercalate_cons_cons, append_assoc, append_assoc], by simp [crlf]⟩
      rw [intercalate_cons_cons, append_assoc, append_assoc, hskip l hl _ (by simp [crlf]),
        findHeadersEnd_crlf_append (hs ▸ hl'.not_prefix hl'ne hhead), ih (cons_ne_nil l' ls) hls]
      simp only [map_some, length_append, crlf, length_cons, length_nil]
      congr 1
      omega

/-- A request line and header lines are parsed one by one. -/
theorem mcpHttpParseRequest_lines (hls : ∀ l' ∈ l :: ls, l' ≠ [] ∧ Unbroken l')
    {avail : Bytes} {req : HttpRequest}
    (hrequest : parseRequestLine l = some (req.method, req.target))
    (hcount : ls.length ≤ mcpHttpMaxHeaders) (hmap : ls.map parseHeaderLine = req.headers.map some)
    (hread : parseBody req.headers avail = some req.body) :
    mcpHttpParseRequest (crlf.intercalate (l :: ls) ++ (crlfCrlf ++ avail)) = some req := by
  obtain ⟨⟨-, hl⟩, hls'⟩ := forall_mem_cons.mp hls
  have hend := findHeadersEnd_lines (cons_ne_nil l ls) hls avail
  obtain ⟨tail, htail, hdrop⟩ : ∃ tail,
      crlf.intercalate (l :: ls) ++ (crlfCrlf ++ avail) = l ++ (crlf ++ tail) ∧
        (crlf.intercalate (l :: ls)).drop (l.length + 2) = crlf.intercalate ls := by
    cases ls with
    | nil =>
      rw [intercalate_singleton, intercalate_nil]
      exact ⟨crlf ++ avail, rfl, drop_eq_nil_of_le (Nat.le_add_right _ 2)⟩
    | cons l' ls =>
      rw [intercalate_cons_cons, append_assoc, append_assoc, append_assoc]
      exact ⟨_, rfl, by rw [← drop_drop, drop_left]; rfl⟩
  have hline := hl.findCrlf_append tail
  rw [← htail] at hline
  have hle : l.length ≤ (crlf.intercalate (l :: ls)).length := by
    cases ls with
    | nil => rw [intercalate_singleton]
    | cons l' ls =>
      rw [intercalate_cons_cons, append_assoc, length_append]
      exact Nat.le_add_right _ _
  have hfirst : (crlf.intercalate (l :: ls) ++ (crlfCrlf ++ avail)).take l.length = l := by
    rw [htail, take_left]
  have hblock : headerBlock (crlf.intercalate (l :: ls) ++ (crlfCrlf ++ avail)) l.length
      (crlf.intercalate (l :: ls)).length = crlf.intercalate ls := by
    rw [headerBlock, take_left, hdrop]
  have hbody : (crlf.intercalate (l :: ls) ++ (crlfCrlf ++ avail)).drop
      ((crlf.intercalate (l :: ls)).length + 4) = avail := by
    rw [← drop_drop, drop_left]
    rfl
  refine mcpHttpParseRequest_eq_some_iff.mpr
    ⟨_, _, hend, hline, hle, hfirst.symm ▸ hrequest, ?_, hbody.symm ▸ hread⟩
  rw [hblock, parseHeaderLines_eq_some_iff (Nat.zero_le _), Nat.zero_add,
    blockLines_intercalate hls' (Nat.lt_succ_self _)]
  exact ⟨hcount, hmap⟩

end Mcpkit.Transport
