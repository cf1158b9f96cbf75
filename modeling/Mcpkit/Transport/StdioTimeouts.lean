import Mathlib.Data.List.ReduceOption
import Mcpkit.Transport.StdioLines

/-!
# Timeouts of the stdio transport

A call that times out frees its buffer, and with it what was read of a line and what
the last call had put into the stash.  The line is then returned without its front.
Nothing is missing in the end exactly if each timeout finds the stream between two
lines, or in front of a line feed with nothing but a carriage return read.
-/

namespace Mcpkit.Transport.Stdio

open Json Protocol List Lines Nat

def okBytes : Except Status Bytes → Bytes
  | .ok line => line
  | .error _ => []

/-- The lines that were returned, one behind the other. -/
def delivered (rs : List (Except Status Bytes)) : Bytes := rs.flatMap okBytes

@[simp] theorem delivered_nil : delivered [] = [] := rfl

@[simp] theorem delivered_cons (r : Except Status Bytes) (rs : List (Except Status Bytes)) :
    delivered (r :: rs) = okBytes r ++ delivered rs := by
  simp [delivered]

@[simp] theorem delivered_append (rs rs' : List (Except Status Bytes)) :
    delivered (rs ++ rs') = delivered rs ++ delivered rs' := by
  simp [delivered]

theorem delivered_takeD {rs : List (Except Status Bytes)} {calls : Nat}
    (h : rs.length ≤ calls) : delivered (rs.takeD calls (.error .io)) = delivered rs := by
  induction calls generalizing rs with
  | zero =>
    rw [length_eq_zero_iff.mp (le_zero.mp h)]
    rfl
  | succ calls ih =>
    cases rs with
    | nil =>
      have hnil : ([] : List (Except Status Bytes)).length ≤ calls := zero_le calls
      simpa [okBytes] using ih hnil
    | cons r rs => simpa using ih (le_of_succ_le_succ h)

def textLines (line s : Bytes) : Bytes := (complete lf line s).flatMap stripCr

theorem delivered_okLines (line s : Bytes) : delivered (okLines line s) = textLines line s := by
  simp [delivered, okLines, textLines, flatMap_map, okBytes]

/-- The lines of a stream and what stands behind them. -/
def streamBytes (line s : Bytes) : Bytes := textLines line s ++ stripCr (remainder lf line s)

theorem streamBytes_append (line t s : Bytes) :
    streamBytes line (t ++ s) = textLines line t ++ streamBytes (remainder lf line t) s := by
  simp [streamBytes, textLines, complete_append, remainder_append]

/-- The input of a call: some bytes, or a timeout. -/
def readOf : Option Bytes → Read
  | some chunk => .data chunk
  | none => .unready .timeout

def bytesOf (items : List (Option Bytes)) : Bytes := items.reduceOption.flatten

@[simp] theorem bytesOf_nil : bytesOf [] = [] := rfl

@[simp] theorem bytesOf_none (items : List (Option Bytes)) :
    bytesOf (none :: items) = bytesOf items := rfl

@[simp] theorem bytesOf_some (chunk : Bytes) (items : List (Option Bytes)) :
    bytesOf (some chunk :: items) = chunk ++ bytesOf items := rfl

/-- Every line is so far below the limit that no read makes the buffer too long. -/
def WellBelow (line s : Bytes) : Prop :=
  (∀ l ∈ complete lf line s, l.length + 4096 < mcpProtocolMaxMessageBytes) ∧
    (remainder lf line s).length + 4096 < mcpProtocolMaxMessageBytes

variable {line t s : Bytes} {items : List (Option Bytes)}

theorem WellBelow.append_right (h : WellBelow line (t ++ s)) :
    WellBelow (remainder lf line t) s := by
  rw [WellBelow, complete_append, remainder_append] at h
  exact ⟨fun l hl => h.1 l (mem_append_right _ hl), h.2⟩

theorem WellBelow.length_lt (h : WellBelow line s) :
    line.length + 4096 < mcpProtocolMaxMessageBytes := by
  by_cases hlf : lf ∈ s
  · obtain ⟨pre, post, rfl, hpre⟩ := eq_append_cons_of_mem hlf
    have hfirst := h.1 (line ++ pre) (by simp [complete_append_sep hpre])
    rw [length_append] at hfirst
    omega
  · have hrest := h.2
    rw [remainder_of_notMem hlf, length_append] at hrest
    omega

/-- What is returned if a part of a line is held. -/
def heldBytes (line : Bytes) (items : List (Option Bytes)) : Bytes :=
  delivered (results (some line) (items.map readOf))

@[simp] theorem heldBytes_nil (line : Bytes) : heldBytes line [] = stripCr line := by
  by_cases hline : line = [] <;> simp [heldBytes, results, hline, okBytes]

@[simp] theorem heldBytes_none (line : Bytes) (items : List (Option Bytes)) :
    heldBytes line (none :: items) = heldBytes [] items := by
  simp [heldBytes, readOf, results, okBytes]

theorem heldBytes_some {chunk : Bytes} (items : List (Option Bytes)) (hne : chunk ≠ [])
    (hfit : line.length + chunk.length < mcpProtocolMaxMessageBytes) :
    heldBytes line (some chunk :: items) =
      textLines line chunk ++ heldBytes (remainder lf line chunk) items := by
  have hsmall : ¬ mcpProtocolMaxMessageBytes < line.length + chunk.length + 1 := by omega
  simp [heldBytes, readOf, results, hne, hsmall, delivered_okLines]

/-- The front of a line that may be lost: a carriage return with the end of the line behind it
is not returned anyway. -/
def Droppable (front s : Bytes) : Prop := front = [] ∨ (front = [cr] ∧ (s = [] ∨ s.head? = some lf))

instance (front s : Bytes) : Decidable (Droppable front s) := inferInstanceAs (Decidable (_ ∨ _))

/-- Each timeout finds a front that may be lost. -/
def TimeoutsHarmless (line : Bytes) (items : List (Option Bytes)) : Prop :=
  ∀ before after, items = before ++ none :: after →
    Droppable (remainder lf line (bytesOf before)) (bytesOf after)

theorem timeoutsHarmless_nil (line : Bytes) : TimeoutsHarmless line [] := by
  intro before after hsplit
  simp at hsplit

theorem timeoutsHarmless_none (line : Bytes) (items : List (Option Bytes)) :
    TimeoutsHarmless line (none :: items) ↔
      Droppable line (bytesOf items) ∧ TimeoutsHarmless line items := by
  constructor
  · intro h
    refine ⟨h [] items rfl, ?_⟩
    intro before after hsplit
    exact h (none :: before) after (by rw [hsplit, cons_append])
  rintro ⟨hfirst, hrest⟩ before after hsplit
  cases before with
  | nil =>
    obtain ⟨-, rfl⟩ := List.cons.inj hsplit
    exact hfirst
  | cons item before =>
    obtain ⟨rfl, hitems⟩ := List.cons.inj hsplit
    exact hrest before after hitems

theorem timeoutsHarmless_some (line chunk : Bytes) (items : List (Option Bytes)) :
    TimeoutsHarmless line (some chunk :: items) ↔
      TimeoutsHarmless (remainder lf line chunk) items := by
  constructor
  · intro h before after hsplit
    have hlater := h (some chunk :: before) after (by rw [hsplit, cons_append])
    rwa [bytesOf_some, remainder_append] at hlater
  intro h before after hsplit
  cases before with
  | nil =>
    have hfirst := (List.cons.inj hsplit).1
    cases hfirst
  | cons item before =>
    obtain ⟨rfl, hitems⟩ := List.cons.inj hsplit
    rw [bytesOf_some, remainder_append]
    exact h before after hitems

theorem droppable_append_iff (ht : lf ∉ t) (hend : s = [] ∨ s.head? = some lf) (front : Bytes) :
    Droppable front (t ++ s) ↔ front = [] ∨ (front = [cr] ∧ t = []) := by
  cases t with
  | nil => simp [Droppable, hend]
  | cons c t =>
    rw [mem_cons, not_or] at ht
    simp [Droppable, Ne.symm ht.1]

theorem Droppable.of_append {front w : Bytes} (h : Droppable (front ++ w) s) :
    Droppable front (w ++ s) := by
  rcases h with hnil | ⟨hcr, hend⟩
  · exact .inl (append_eq_nil_iff.mp hnil).1
  · rcases append_eq_singleton_iff.mp hcr with ⟨hfront, -⟩ | ⟨hfront, rfl⟩
    · exact .inl hfront
    · exact .inr ⟨hfront, hend⟩

theorem append_eq_append_iff_of_le {a b a' b' : Bytes} (ha : a.length ≤ a'.length)
    (hb : b.length ≤ b'.length) : a ++ b = a' ++ b' ↔ a = a' ∧ b = b' := by
  constructor
  · intro h
    have hlength := congrArg List.length h
    rw [length_append, length_append] at hlength
    exact append_inj h (by omega)
  · rintro ⟨rfl, rfl⟩
    rfl

theorem textLines_of_notMem (ht : lf ∉ t) (line : Bytes) : textLines line t = [] := by
  rw [textLines, complete_of_notMem ht]
  rfl

theorem textLines_append_lf (ht : lf ∉ t) (line s : Bytes) :
    textLines line (t ++ lf :: s) = stripCr (line ++ t) ++ textLines [] s := by
  rw [textLines, complete_append_sep ht]
  rfl

theorem textLines_append_eq_iff {pre : Bytes} (hline : lf ∉ line) (hpre : lf ∉ pre)
    (front post s : Bytes) {rest rest' : Bytes} (hle : rest.length ≤ rest'.length) :
    (textLines line (pre ++ lf :: post) ++ rest).length ≤
        (textLines (front ++ line) (pre ++ lf :: post) ++ rest').length ∧
      (textLines line (pre ++ lf :: post) ++ rest =
          textLines (front ++ line) (pre ++ lf :: post) ++ rest' ↔
        Droppable front (line ++ (pre ++ lf :: post ++ s)) ∧ rest = rest') := by
  have hfirst : (stripCr (line ++ pre) ++ textLines [] post).length ≤
      (stripCr (front ++ (line ++ pre)) ++ textLines [] post).length := by
    have hfront := length_stripCr_le front (line ++ pre)
    simp only [length_append]
    omega
  have hends : line ++ (pre ++ lf :: post ++ s) = (line ++ pre) ++ (lf :: (post ++ s)) := by simp
  have hlater : lf ∉ line ++ pre := by simp [hline, hpre]
  rw [textLines_append_lf hpre, textLines_append_lf hpre, append_assoc front]
  constructor
  · simp only [length_append] at hfirst ⊢
    omega
  · rw [append_eq_append_iff_of_le hfirst hle, append_cancel_right_eq,
      stripCr_eq_append_iff, hends, droppable_append_iff hlater (.inr rfl)]

/-- The line is held without a front that was lost.  No byte is missing exactly if that front may
be lost, and so may all that is lost later. -/
theorem heldBytes_eq_iff (hcut : IsCut items.reduceOption) (front : Bytes) (hline : lf ∉ line)
    (hbelow : WellBelow (front ++ line) (bytesOf items)) :
    (heldBytes line items).length ≤ (streamBytes (front ++ line) (bytesOf items)).length ∧
      (heldBytes line items = streamBytes (front ++ line) (bytesOf items) ↔
        Droppable front (line ++ bytesOf items) ∧ TimeoutsHarmless (front ++ line) items) := by
  induction items generalizing front line with
  | nil =>
    have hdrop := droppable_append_iff hline (.inl rfl) front
    rw [← stripCr_eq_append_iff] at hdrop
    constructor
    · simpa [streamBytes, textLines] using length_stripCr_le front line
    · simpa [streamBytes, textLines, timeoutsHarmless_nil] using hdrop.symm
  | cons item items ih =>
    cases item with
    | none =>
      -- the whole of the line is lost
      have hrest := ih hcut (front ++ line) not_mem_nil (by simpa using hbelow)
      rw [append_nil, nil_append] at hrest
      rw [heldBytes_none, bytesOf_none, timeoutsHarmless_none]
      refine ⟨hrest.1, hrest.2.trans ?_⟩
      constructor
      · intro h
        exact ⟨h.1.of_append, h⟩
      · exact And.right
    | some chunk =>
      obtain ⟨hne, hsize⟩ := hcut chunk mem_cons_self
      have hcut' : IsCut items.reduceOption := IsCut.tail hcut
      have hfit : line.length + chunk.length < mcpProtocolMaxMessageBytes := by
        have hlength := hbelow.length_lt
        rw [length_append] at hlength
        omega
      have hbelow' := hbelow.append_right
      rw [heldBytes_some items hne hfit, bytesOf_some, streamBytes_append, timeoutsHarmless_some]
      by_cases hlf : lf ∈ chunk
      · -- the line ends, and the next one is held as a whole
        obtain ⟨pre, post, rfl, hpre⟩ := eq_append_cons_of_mem hlf
        rw [remainder_append_sep hpre] at hbelow'
        have hheld : lf ∉ remainder lf [] post := notMem_remainder not_mem_nil
        obtain ⟨hle, hiff⟩ := ih hcut' [] hheld hbelow'
        rw [nil_append] at hle hiff
        rw [remainder_append_sep hpre, remainder_append_sep hpre]
        obtain ⟨hlength, heq⟩ := textLines_append_eq_iff hline hpre front post (bytesOf items) hle
        refine ⟨hlength, heq.trans (and_congr_right fun _ => hiff.trans ?_)⟩
        exact ⟨And.right, fun h => ⟨.inl rfl, h⟩⟩
      · -- the line goes on
        rw [remainder_of_notMem hlf, append_assoc] at hbelow'
        have hheld : lf ∉ line ++ chunk := by simp [hline, hlf]
        have hrest := ih hcut' front hheld hbelow'
        rw [textLines_of_notMem hlf, textLines_of_notMem hlf, remainder_of_notMem hlf,
          remainder_of_notMem hlf, append_assoc front]
        rwa [append_assoc line] at hrest

theorem reduceOption_filter (items : List (Option Bytes)) :
    (items.filter (·.isSome)).reduceOption = items.reduceOption := by
  induction items with
  | nil => rfl
  | cons item items ih => cases item <;> simp [ih]

theorem timeoutsHarmless_filter (line : Bytes) (items : List (Option Bytes)) :
    TimeoutsHarmless line (items.filter (·.isSome)) := by
  intro before after hsplit
  have hmem : none ∈ items.filter (·.isSome) := by simp [hsplit]
  simp at hmem

theorem heldBytes_filter (hcut : IsCut items.reduceOption) (hbelow : WellBelow [] (bytesOf items)) :
    heldBytes [] (items.filter (·.isSome)) = streamBytes [] (bytesOf items) := by
  have hsame : bytesOf (items.filter (·.isSome)) = bytesOf items := by
    rw [bytesOf, reduceOption_filter, bytesOf]
  rw [← reduceOption_filter] at hcut
  rw [← hsame] at hbelow ⊢
  exact (heldBytes_eq_iff hcut [] not_mem_nil hbelow).2.mpr
    ⟨.inl rfl, timeoutsHarmless_filter _ _⟩

theorem delivered_stdioCalls {calls : Nat}
    (h : (results (some []) (items.map readOf)).length ≤ calls) :
    delivered (stdioCalls calls [] (items.map readOf)) = heldBytes [] items := by
  rw [stdioCalls_eq, resultsFrom_of_notMem not_mem_nil, delivered_takeD h, heldBytes]

/-- Timeouts change nothing in what is returned in the end exactly if each of them finds no part
of a line that would be missing. -/
theorem delivered_timeouts_iff (items : List (Option Bytes)) (hcut : IsCut items.reduceOption)
    (hbelow : WellBelow [] (bytesOf items)) :
    (∃ enough, ∀ calls, enough ≤ calls →
      delivered (stdioCalls calls [] (items.map readOf)) =
        delivered (stdioCalls calls [] ((items.filter (·.isSome)).map readOf))) ↔
      TimeoutsHarmless [] items := by
  have hiff := (heldBytes_eq_iff hcut [] not_mem_nil hbelow).2
  have hmain : heldBytes [] items = heldBytes [] (items.filter (·.isSome)) ↔
      TimeoutsHarmless [] items := by
    rw [heldBytes_filter hcut hbelow]
    exact hiff.trans ⟨And.right, fun h => ⟨.inl rfl, h⟩⟩
  rw [← hmain]
  constructor
  · rintro ⟨enough, h⟩
    have hall := h _ (le_add_right enough ((results (some []) (items.map readOf)).length +
      (results (some []) ((items.filter (·.isSome)).map readOf)).length))
    rwa [delivered_stdioCalls (by omega), delivered_stdioCalls (by omega)] at hall
  intro h
  refine ⟨(results (some []) (items.map readOf)).length +
    (results (some []) ((items.filter (·.isSome)).map readOf)).length, ?_⟩
  intro calls hcalls
  rw [delivered_stdioCalls (by omega), delivered_stdioCalls (by omega), h]

/-- Timeouts between two lines and between the two bytes of a line end. -/
theorem delivered_timeouts_betweenLines :
    ∃ enough, ∀ calls, enough ≤ calls →
      delivered (stdioCalls calls []
        ([some [0x61, lf], none, some [0x62, cr], some [lf, cr], none, some [lf]].map readOf)) =
      delivered (stdioCalls calls []
        ([some [0x61, lf], some [0x62, cr], some [lf, cr], some [lf]].map readOf)) := by
  have hcut : IsCut [[0x61, lf], [0x62, cr], [lf, cr], [lf]] := by decide
  have hbelow : WellBelow [] [0x61, lf, 0x62, cr, lf, cr, lf] := by
    simp [WellBelow, complete, remainder, lf, cr, mcpProtocolMaxMessageBytes]
  have hharmless : TimeoutsHarmless []
      [some [0x61, lf], none, some [0x62, cr], some [lf, cr], none, some [lf]] := by
    simp [timeoutsHarmless_some, timeoutsHarmless_none, timeoutsHarmless_nil, Droppable,
      remainder, lf, cr]
  exact (delivered_timeouts_iff
    [some [0x61, lf], none, some [0x62, cr], some [lf, cr], none, some [lf]] hcut hbelow).mpr
    hharmless

/-- A line of two bytes with a timeout between them loses the first. -/
theorem delivered_timeout_insideLine :
    WellBelow [] [0x61, 0x62, lf] ∧
      ¬∃ enough, ∀ calls, enough ≤ calls →
        delivered (stdioCalls calls [] ([some [0x61], none, some [0x62, lf]].map readOf)) =
          delivered (stdioCalls calls [] ([some [0x61], some [0x62, lf]].map readOf)) := by
  constructor
  · simp [WellBelow, complete, remainder, lf, mcpProtocolMaxMessageBytes]
  rintro ⟨enough, h⟩
  have hcut : ∀ calls, 2 ≤ calls →
      delivered (stdioCalls calls [] ([some [0x61], none, some [0x62, lf]].map readOf)) =
        [0x62] := fun _ hcalls => delivered_stdioCalls hcalls
  have hwhole : ∀ calls, 1 ≤ calls →
      delivered (stdioCalls calls [] ([some [0x61], some [0x62, lf]].map readOf)) =
        [0x61, 0x62] := fun _ hcalls => delivered_stdioCalls hcalls
  have heq := h (enough + 2) (le_add_right enough 2)
  rw [hcut _ (le_add_left 2 enough), hwhole _ (by omega)] at heq
  exact absurd heq (by decide)

end Mcpkit.Transport.Stdio
