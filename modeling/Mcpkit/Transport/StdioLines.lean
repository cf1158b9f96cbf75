import Mcpkit.Transport.Stdio

/-!
# Lines of the stdio transport

A line that is too long is answered by one error, and the other lines are returned.
`stdio_recv` looks at the length of what it has read and not at that of the line.
If a read that holds a line feed makes the buffer too long, the lines in it are lost
together with the next one.  Apart from the last bytes of the stream, such reads are
exactly where the results depend on how the bytes are cut.
-/

namespace Mcpkit.Transport.Stdio

open Json Protocol List Lines Nat

/-- A line feed ends the line, so the buffer holds one byte more. -/
def lineResult (line : Bytes) : Except Status Bytes :=
  if line.length < mcpProtocolMaxMessageBytes - 1 then .ok (stripCr line) else .error .protocol

/-- The end of the input ends the line. -/
def restResult (rest : Bytes) : Except Status Bytes :=
  if rest.length < mcpProtocolMaxMessageBytes then .ok (stripCr rest) else .error .protocol

/-- The results by the bytes, behind the part of a line. -/
def streamResults (line s : Bytes) : List (Except Status Bytes) :=
  (complete lf line s).map lineResult ++
    if remainder lf line s = [] then [] else [restResult (remainder lf line s)]

theorem streamResults_append (line t s : Bytes) :
    streamResults line (t ++ s) =
      (complete lf line t).map lineResult ++
        streamResults (remainder lf line t) s := by
  simp [streamResults, complete_append, remainder_append]

variable {t pre post line chunk : Bytes} {chunks : List Bytes}

theorem streamResults_of_notMem (h : lf ∉ t) (line s : Bytes) :
    streamResults line (t ++ s) = streamResults (line ++ t) s := by
  simp [streamResults_append, complete_of_notMem h, remainder_of_notMem h]

theorem streamResults_append_lf (h : lf ∉ t) (line s : Bytes) :
    streamResults line (t ++ lf :: s) = lineResult (line ++ t) :: streamResults [] s := by
  simp [streamResults, complete_append_sep h, remainder_append_sep h]

theorem streamResults_ne_io (line s : Bytes) : .error .io ∉ streamResults line s := by
  have hline (l : Bytes) : lineResult l ≠ .error .io := by
    unfold lineResult
    split <;> simp
  have hrest (l : Bytes) : restResult l ≠ .error .io := by
    unfold restResult
    split <;> simp
  intro hmem
  rcases mem_append.mp hmem with hmem | hmem
  · obtain ⟨l, -, hl⟩ := mem_map.mp hmem
    exact hline l hl
  · split at hmem
    · exact not_mem_nil hmem
    · exact hrest _ (mem_singleton.mp hmem).symm

/-- The reads of a stream: each gives some bytes, and no more than `tmp` holds. -/
def IsCut (chunks : List Bytes) : Prop := ∀ chunk ∈ chunks, chunk ≠ [] ∧ chunk.length ≤ 4096

instance (chunks : List Bytes) : Decidable (IsCut chunks) :=
  inferInstanceAs (Decidable (∀ chunk ∈ chunks, chunk ≠ [] ∧ chunk.length ≤ 4096))

/-- The results of the calls, by the part of a line that is held, or while one is discarded. -/
def chunkResults (held : Option Bytes) (chunks : List Bytes) : List (Except Status Bytes) :=
  results held (chunks.map .data)

section Steps

variable (chunks)

theorem chunkResults_fits (hne : chunk ≠ [])
    (hfit : line.length + chunk.length < mcpProtocolMaxMessageBytes) :
    chunkResults (some line) (chunk :: chunks) =
      okLines line chunk ++ chunkResults (some (remainder lf line chunk)) chunks := by
  have hsmall : ¬ mcpProtocolMaxMessageBytes < line.length + chunk.length + 1 := by omega
  simp [chunkResults, results, hne, hsmall]

theorem chunkResults_over (hne : chunk ≠ [])
    (hover : mcpProtocolMaxMessageBytes ≤ line.length + chunk.length) :
    chunkResults (some line) (chunk :: chunks) = chunkResults none chunks := by
  have hbig : mcpProtocolMaxMessageBytes < line.length + chunk.length + 1 := by omega
  simp [chunkResults, results, hne, hbig]

theorem chunkResults_none_of_notMem (hne : chunk ≠ []) (hlf : lf ∉ chunk) :
    chunkResults none (chunk :: chunks) = chunkResults none chunks := by
  simp [chunkResults, results, hne, hlf]

theorem chunkResults_none_append_lf (hpre : lf ∉ pre) (post : Bytes) :
    chunkResults none ((pre ++ lf :: post) :: chunks) =
      .error .protocol :: (okLines [] post ++
        chunkResults (some (remainder lf [] post)) chunks) := by
  simp [chunkResults, results, behindLf_append_lf hpre]

end Steps

theorem length_okLines (line s : Bytes) :
    (okLines line s).length = (complete lf line s).length := by
  simp [okLines]

theorem length_streamResults_append (line t s : Bytes) :
    (streamResults line (t ++ s)).length =
      (complete lf line t).length + (streamResults (remainder lf line t) s).length := by
  simp [streamResults_append]

theorem IsCut.tail (h : IsCut (chunk :: chunks)) : IsCut chunks :=
  fun c hc => h c (mem_cons_of_mem chunk hc)

theorem IsCut.eq_nil (h : IsCut chunks) (hnil : chunks.flatten = []) : chunks = [] := by
  apply eq_nil_iff_forall_not_mem.mpr
  intro chunk hmem
  exact (h chunk hmem).1 (flatten_eq_nil_iff.mp hnil chunk hmem)

theorem length_chunkResults_none_le (hcut : IsCut chunks)
    (h : line ++ chunks.flatten ≠ [] →
      (chunkResults none chunks).length ≤ (streamResults line chunks.flatten).length) :
    (chunkResults none chunks).length ≤ (streamResults line chunks.flatten).length + 1 := by
  by_cases hend : line ++ chunks.flatten = []
  · rw [hcut.eq_nil (append_eq_nil_iff.mp hend).2]
    simp [chunkResults, results]
  · exact le_succ_of_le (h hend)

/-- There are never more results than lines.  While a line is discarded, one of the lines is
that line. -/
theorem length_chunkResults_le (hcut : IsCut chunks) (line : Bytes) :
    (chunkResults (some line) chunks).length ≤ (streamResults line chunks.flatten).length ∧
      (line ++ chunks.flatten ≠ [] →
        (chunkResults none chunks).length ≤ (streamResults line chunks.flatten).length) := by
  induction chunks generalizing line with
  | nil =>
    constructor
    · by_cases hline : line = [] <;> simp [chunkResults, results, streamResults, hline]
    · intro hne
      have hline : line ≠ [] := by simpa using hne
      simp [chunkResults, results, streamResults, hline]
  | cons chunk chunks ih =>
    have hne : chunk ≠ [] := (hcut chunk mem_cons_self).1
    rw [flatten_cons]
    by_cases hlf : lf ∈ chunk
    · obtain ⟨pre, post, rfl, hpre⟩ := eq_append_cons_of_mem hlf
      have hcount := length_streamResults_append line (pre ++ lf :: post) chunks.flatten
      have hrest := ih hcut.tail (remainder lf line (pre ++ lf :: post))
      rw [complete_append_sep hpre, length_cons] at hcount
      constructor
      · by_cases hfit : line.length + (pre ++ lf :: post).length < mcpProtocolMaxMessageBytes
        · rw [chunkResults_fits chunks hne hfit, length_append, length_okLines,
            complete_append_sep hpre, length_cons]
          omega
        · rw [chunkResults_over chunks hne (Nat.le_of_not_lt hfit)]
          have hdiscard := length_chunkResults_none_le hcut.tail hrest.2
          omega
      · intro _
        rw [chunkResults_none_append_lf chunks hpre, length_cons, length_append, length_okLines]
        rw [remainder_append_sep hpre] at hrest hcount
        omega
    · rw [streamResults_of_notMem hlf]
      have hrest := ih hcut.tail (line ++ chunk)
      have hnonempty : line ++ chunk ++ chunks.flatten ≠ [] := by simp [hne]
      constructor
      · by_cases hfit : line.length + chunk.length < mcpProtocolMaxMessageBytes
        · rw [chunkResults_fits chunks hne hfit, remainder_of_notMem hlf, okLines,
            complete_of_notMem hlf]
          exact hrest.1
        · rw [chunkResults_over chunks hne (Nat.le_of_not_lt hfit)]
          exact hrest.2 hnonempty
      · intro _
        rw [chunkResults_none_of_notMem chunks hne hlf]
        exact hrest.2 hnonempty

/-- Each read that holds a line feed fits into the buffer, unless the line was too long before
or that line feed ends the stream. -/
def LinesFit (line : Bytes) (chunks : List Bytes) : Prop :=
  ∀ before chunk after, chunks = before ++ chunk :: after → lf ∈ chunk →
    (remainder lf line before.flatten).length < mcpProtocolMaxMessageBytes →
    (remainder lf line before.flatten).length + chunk.length < mcpProtocolMaxMessageBytes ∨
      (behindLf chunk = [] ∧ after = [])

theorem linesFit_nil (line : Bytes) : LinesFit line [] := by
  intro before chunk after hsplit
  simp at hsplit

theorem linesFit_cons (line chunk : Bytes) (chunks : List Bytes) :
    LinesFit line (chunk :: chunks) ↔
      (lf ∈ chunk → line.length < mcpProtocolMaxMessageBytes →
        line.length + chunk.length < mcpProtocolMaxMessageBytes ∨
          (behindLf chunk = [] ∧ chunks = [])) ∧
      LinesFit (remainder lf line chunk) chunks := by
  constructor
  · intro h
    refine ⟨h [] chunk chunks rfl, ?_⟩
    intro before c after hsplit
    have hlater := h (chunk :: before) c after (by rw [hsplit, cons_append])
    rwa [flatten_cons, remainder_append] at hlater
  rintro ⟨hfirst, hrest⟩ before c after hsplit
  cases before with
  | nil =>
    obtain ⟨rfl, rfl⟩ := List.cons.inj hsplit
    exact hfirst
  | cons b before =>
    obtain ⟨rfl, hchunks⟩ := List.cons.inj hsplit
    rw [flatten_cons, remainder_append]
    exact hrest before c after hchunks

theorem linesFit_cons_of_fits
    (h : lf ∈ chunk → line.length < mcpProtocolMaxMessageBytes →
      line.length + chunk.length < mcpProtocolMaxMessageBytes) :
    LinesFit line (chunk :: chunks) ↔ LinesFit (remainder lf line chunk) chunks := by
  rw [linesFit_cons]
  constructor
  · exact And.right
  · intro hrest
    exact ⟨fun hlf hline => .inl (h hlf hline), hrest⟩

theorem okLines_eq {s : Bytes} (h : line.length + s.length < mcpProtocolMaxMessageBytes) :
    okLines line s = (complete lf line s).map lineResult := by
  apply map_congr_left
  intro l hl
  have hshort := length_lt_of_mem_complete hl
  exact (if_pos (by omega)).symm

theorem chunkResults_none_eq_iff (hcut : IsCut chunks) (hpre : lf ∉ pre) (post : Bytes)
    (hover : mcpProtocolMaxMessageBytes ≤ line.length + (pre ++ lf :: post).length) :
    chunkResults none chunks = streamResults line ((pre ++ lf :: post) ++ chunks.flatten) ↔
      post = [] ∧ chunks = [] := by
  constructor
  · intro heq
    have hlength := congrArg List.length heq
    rw [length_streamResults_append, complete_append_sep hpre,
      remainder_append_sep hpre, length_cons] at hlength
    have hend : remainder lf [] post ++ chunks.flatten = [] := by
      by_contra hend
      have hdiscard := (length_chunkResults_le hcut (remainder lf [] post)).2 hend
      omega
    obtain ⟨hrest, hflat⟩ := append_eq_nil_iff.mp hend
    have hnil := hcut.eq_nil hflat
    refine ⟨?_, hnil⟩
    by_cases hlf : lf ∈ post
    · obtain ⟨t, s, rfl, ht⟩ := eq_append_cons_of_mem hlf
      rw [hnil, complete_append_sep ht] at hlength
      have hone : (chunkResults none []).length = 1 := rfl
      rw [length_cons] at hlength
      omega
    · rwa [remainder_of_notMem hlf] at hrest
  · rintro ⟨rfl, rfl⟩
    have hlong : ¬ (line ++ pre).length < mcpProtocolMaxMessageBytes - 1 := by
      simp only [length_append, length_singleton] at hover ⊢
      omega
    rw [flatten_nil, append_nil, streamResults_append_lf hpre, lineResult, if_neg hlong]
    simp [chunkResults, results, streamResults]

theorem chunkResults_over_iff (hcut : IsCut chunks)
    (hline : line.length < mcpProtocolMaxMessageBytes) (hpre : lf ∉ pre) (post : Bytes)
    (hover : mcpProtocolMaxMessageBytes ≤ line.length + (pre ++ lf :: post).length) :
    chunkResults none chunks = streamResults line ((pre ++ lf :: post) ++ chunks.flatten) ↔
      LinesFit line ((pre ++ lf :: post) :: chunks) := by
  rw [chunkResults_none_eq_iff hcut hpre post hover, linesFit_cons, behindLf_append_lf hpre]
  constructor
  · rintro ⟨hpost, rfl⟩
    exact ⟨fun _ _ => .inr ⟨hpost, rfl⟩, linesFit_nil _⟩
  · rintro ⟨hfirst, -⟩
    exact (hfirst (by simp) hline).resolve_left (not_lt.mpr hover)

theorem streamResults_discarded (hline : mcpProtocolMaxMessageBytes ≤ line.length)
    (hpre : lf ∉ pre) (hfit : post.length < mcpProtocolMaxMessageBytes) (s : Bytes) :
    streamResults line ((pre ++ lf :: post) ++ s) =
      .error .protocol :: (okLines [] post ++ streamResults (remainder lf [] post) s) := by
  have hlong : ¬ (line ++ pre).length < mcpProtocolMaxMessageBytes - 1 := by
    rw [length_append]
    omega
  have hfit' : ([] : Bytes).length + post.length < mcpProtocolMaxMessageBytes := by
    rwa [length_nil, zero_add]
  rw [append_assoc, cons_append, streamResults_append_lf hpre, lineResult,
    if_neg hlong, streamResults_append, okLines_eq hfit']

theorem chunkResults_discarded_iff
    (hsize : (pre ++ lf :: post).length ≤ 4096) (hline : mcpProtocolMaxMessageBytes ≤ line.length)
    (hpre : lf ∉ pre)
    (hrest : (remainder lf [] post).length < mcpProtocolMaxMessageBytes →
      (chunkResults (some (remainder lf [] post)) chunks =
          streamResults (remainder lf [] post) chunks.flatten ↔
        LinesFit (remainder lf [] post) chunks)) :
    chunkResults none ((pre ++ lf :: post) :: chunks) =
        streamResults line (pre ++ lf :: post ++ chunks.flatten) ↔
      LinesFit line ((pre ++ lf :: post) :: chunks) := by
  have hlimit : 4096 < mcpProtocolMaxMessageBytes := by decide
  rw [length_append, length_cons] at hsize
  have hfit : post.length < mcpProtocolMaxMessageBytes := by omega
  have hheld : (remainder lf [] post).length < mcpProtocolMaxMessageBytes := by
    have hle := length_remainder_le lf [] post
    rw [length_nil] at hle
    omega
  rw [chunkResults_none_append_lf chunks hpre, streamResults_discarded hline hpre hfit,
    cons_inj_right, append_cancel_left_eq,
    linesFit_cons_of_fits fun _ hshort => absurd hshort (not_lt.mpr hline),
    remainder_append_sep hpre]
  exact hrest hheld

theorem chunkResults_eq_iff (hcut : IsCut chunks) (line : Bytes) :
    (line.length < mcpProtocolMaxMessageBytes →
      (chunkResults (some line) chunks = streamResults line chunks.flatten ↔
        LinesFit line chunks)) ∧
    (mcpProtocolMaxMessageBytes ≤ line.length →
      (chunkResults none chunks = streamResults line chunks.flatten ↔ LinesFit line chunks)) := by
  induction chunks generalizing line with
  | nil =>
    constructor
    · intro hline
      refine iff_of_true ?_ (linesFit_nil line)
      simp [chunkResults, results, streamResults, restResult, hline]
    intro hline
    have hne : line ≠ [] := by
      rintro rfl
      simp [mcpProtocolMaxMessageBytes] at hline
    refine iff_of_true ?_ (linesFit_nil line)
    simp [chunkResults, results, streamResults, restResult, hne, not_lt.mpr hline]
  | cons chunk chunks ih =>
    obtain ⟨hne, hsize⟩ := hcut chunk mem_cons_self
    have hrest := ih hcut.tail (remainder lf line chunk)
    rw [flatten_cons]
    by_cases hlf : lf ∈ chunk
    · obtain ⟨pre, post, rfl, hpre⟩ := eq_append_cons_of_mem hlf
      constructor
      · intro hline
        by_cases hfit : line.length + (pre ++ lf :: post).length < mcpProtocolMaxMessageBytes
        · -- the lines of the read are returned and its remainder is held
          have hheld := lt_of_le_of_lt (length_remainder_le lf line _) hfit
          rw [chunkResults_fits chunks hne hfit, streamResults_append, okLines_eq hfit,
            append_cancel_left_eq, linesFit_cons_of_fits fun _ _ => hfit]
          exact hrest.1 hheld
        · -- the line feed of the read is lost
          have hover := Nat.le_of_not_lt hfit
          rw [chunkResults_over chunks hne hover]
          exact chunkResults_over_iff hcut.tail hline hpre post hover
      · intro hline
        rw [remainder_append_sep hpre] at hrest
        exact chunkResults_discarded_iff hsize hline hpre hrest.1
    · rw [remainder_of_notMem hlf, length_append] at hrest
      rw [streamResults_of_notMem hlf, linesFit_cons_of_fits fun hmem => absurd hmem hlf,
        remainder_of_notMem hlf]
      constructor
      · intro hline
        by_cases hfit : line.length + chunk.length < mcpProtocolMaxMessageBytes
        · rw [chunkResults_fits chunks hne hfit, okLines, complete_of_notMem hlf,
            remainder_of_notMem hlf]
          exact hrest.1 hfit
        · rw [chunkResults_over chunks hne (Nat.le_of_not_lt hfit)]
          exact hrest.2 (Nat.le_of_not_lt hfit)
      · intro hline
        rw [chunkResults_none_of_notMem chunks hne hlf]
        exact hrest.2 (le_add_right_of_le hline)

theorem chunkResults_ne_io (hcut : IsCut chunks) (held : Option Bytes) :
    .error .io ∉ chunkResults held chunks := by
  have hlines (line s : Bytes) : .error .io ∉ okLines line s := by simp [okLines]
  induction chunks generalizing held with
  | nil =>
    cases held with
    | none => simp [chunkResults, results]
    | some line => by_cases hline : line = [] <;> simp [chunkResults, results, hline]
  | cons chunk chunks ih =>
    have hne : chunk ≠ [] := (hcut chunk mem_cons_self).1
    have hrest := ih hcut.tail
    cases held with
    | none =>
      by_cases hlf : lf ∈ chunk
      · obtain ⟨pre, post, rfl, hpre⟩ := eq_append_cons_of_mem hlf
        rw [chunkResults_none_append_lf chunks hpre]
        simp [hlines, hrest]
      · rw [chunkResults_none_of_notMem chunks hne hlf]
        exact hrest none
    | some line =>
      by_cases hfit : line.length + chunk.length < mcpProtocolMaxMessageBytes
      · rw [chunkResults_fits chunks hne hfit]
        simp [hlines, hrest]
      · rw [chunkResults_over chunks hne (Nat.le_of_not_lt hfit)]
        exact hrest none

/-- The results of the calls are those of the bytes exactly if no line feed is lost. -/
theorem stdioCalls_eq_streamResults_iff (chunks : List Bytes) (hcut : IsCut chunks) :
    (∀ calls, stdioCalls calls [] (chunks.map .data) =
      (streamResults [] chunks.flatten).takeD calls (.error .io)) ↔ LinesFit [] chunks := by
  have hempty : ([] : Bytes).length < mcpProtocolMaxMessageBytes := by decide
  rw [← (chunkResults_eq_iff hcut []).1 hempty]
  constructor
  · intro h
    apply eq_of_takeD_eq (chunkResults_ne_io hcut _) (streamResults_ne_io _ _)
    intro calls
    rw [← h calls, stdioCalls_eq]
    rfl
  · intro h calls
    rw [← h, stdioCalls_eq]
    rfl

/-- A line in three reads and one that the end of the input ends. -/
theorem stdioCalls_smallReads :
    IsCut [[0x61], [0x62, cr], [lf, 0x63], [0x64]] ∧
      ∀ calls, stdioCalls calls [] ([[0x61], [0x62, cr], [lf, 0x63], [0x64]].map .data) =
        [.ok [0x61, 0x62], .ok [0x63, 0x64]].takeD calls (.error .io) := by
  have hcut : IsCut [[0x61], [0x62, cr], [lf, 0x63], [0x64]] := by decide
  have hfit : LinesFit [] [[0x61], [0x62, cr], [lf, 0x63], [0x64]] := by
    simp [linesFit_cons, linesFit_nil, remainder, lf, cr, mcpProtocolMaxMessageBytes]
  exact ⟨hcut, (stdioCalls_eq_streamResults_iff _ hcut).mpr hfit⟩

/-! A line that fits, and a read that holds its end and another line. -/

def fullReads : List Bytes := List.replicate 1023 (List.replicate 4096 0x78)

def lastRead : Bytes := List.replicate 4093 0x78 ++ [lf, 0x79, lf]

theorem flatten_fullReads : fullReads.flatten = List.replicate (1023 * 4096) 0x78 :=
  flatten_replicate_replicate

theorem chunkResults_held (hne : [] ∉ chunks) (hlf : lf ∉ chunks.flatten)
    (hfit : line.length + chunks.flatten.length < mcpProtocolMaxMessageBytes) (rest : List Bytes) :
    chunkResults (some line) (chunks ++ rest) =
      chunkResults (some (line ++ chunks.flatten)) rest := by
  induction chunks generalizing line with
  | nil => simp
  | cons chunk chunks ih =>
    rw [mem_cons, not_or] at hne
    rw [flatten_cons, mem_append, not_or] at hlf
    rw [flatten_cons, length_append] at hfit
    rw [cons_append, chunkResults_fits _ (Ne.symm hne.1) (by omega), okLines,
      complete_of_notMem hlf.1, remainder_of_notMem hlf.1, map_nil,
      nil_append, ih hne.2 hlf.2 (by rw [length_append]; omega), flatten_cons, append_assoc]

theorem chunkResults_lostRead (hne : [] ∉ chunks) (hlf : lf ∉ chunks.flatten)
    (hfit : chunks.flatten.length < mcpProtocolMaxMessageBytes)
    {last : Bytes} (hlast : last ≠ [])
    (hover : mcpProtocolMaxMessageBytes ≤ chunks.flatten.length + last.length) :
    chunkResults (some []) (chunks ++ [last]) = [.error .protocol] := by
  have hheld : ([] : Bytes).length + chunks.flatten.length < mcpProtocolMaxMessageBytes := by
    rwa [length_nil, zero_add]
  rw [chunkResults_held hne hlf hheld, nil_append, chunkResults_over [] hlast hover]
  rfl

theorem notMem_xs {c : UInt8} (hc : c ≠ 0x78) :
    c ∉ fullReads.flatten ++ List.replicate 4093 0x78 := by
  rw [flatten_fullReads, replicate_append_replicate]
  exact fun hmem => hc (eq_of_mem_replicate hmem)

theorem length_lastRead : lastRead.length = 4096 := by
  rw [lastRead, length_append, length_replicate]
  rfl

theorem length_fullReads : fullReads.flatten.length = 1023 * 4096 := by
  rw [flatten_fullReads, length_replicate]

theorem isCut_fullReads : IsCut (fullReads ++ [lastRead]) := by
  have hne {chunk : Bytes} (h : chunk.length = 4096) : chunk ≠ [] ∧ chunk.length ≤ 4096 := by
    refine ⟨?_, le_of_eq h⟩
    rintro rfl
    cases h
  intro chunk hmem
  rcases mem_append.mp hmem with hmem | hmem
  · rw [eq_of_mem_replicate hmem]
    exact hne length_replicate
  · rw [mem_singleton.mp hmem]
    exact hne length_lastRead

/-- Both lines are within the limit, and neither is returned: the calls report one line that is
too long and then the end of the input. -/
theorem stdioCalls_lostLines :
    IsCut (fullReads ++ [lastRead]) ∧
      stdioCalls 2 [] ((fullReads ++ [lastRead]).map .data) = [.error .protocol, .error .io] ∧
      (streamResults [] (fullReads ++ [lastRead]).flatten).takeD 2 (.error .io) =
        [.ok (fullReads.flatten ++ List.replicate 4093 0x78), .ok [0x79]] := by
  have hfull := length_fullReads
  have hlast := length_lastRead
  have hmax : mcpProtocolMaxMessageBytes = 1024 * 4096 := rfl
  refine ⟨isCut_fullReads, ?_, ?_⟩
  · have hone : chunkResults (some []) (fullReads ++ [lastRead]) = [.error .protocol] := by
      apply chunkResults_lostRead
      · intro hmem
        exact (isCut_fullReads [] (mem_append_left _ hmem)).1 rfl
      · exact fun hmem => notMem_xs (by decide) (mem_append_left _ hmem)
      · omega
      · exact (isCut_fullReads lastRead (mem_append_right _ mem_cons_self)).1
      · omega
    rw [chunkResults] at hone
    rw [stdioCalls_eq, resultsFrom_of_notMem not_mem_nil, hone]
    rfl
  have hline : (fullReads.flatten ++ List.replicate 4093 0x78).length = 1024 * 4096 - 3 := by
    rw [length_append, hfull, length_replicate]
  have hshort : ([] ++ (fullReads.flatten ++ List.replicate 4093 0x78)).length <
      mcpProtocolMaxMessageBytes - 1 := by
    rw [nil_append, hline, hmax]
    decide
  rw [flatten_append, flatten_singleton, lastRead, ← append_assoc,
    streamResults_append_lf (notMem_xs (by decide)), lineResult, if_pos hshort, nil_append,
    stripCr_of_notMem (notMem_xs (by decide))]
  rfl

end Mcpkit.Transport.Stdio
