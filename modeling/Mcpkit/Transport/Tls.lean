import Mcpkit.Protocol.Message
import Mcpkit.Transport.LineText

/-!
# The TLS transport

`tls_recv` reads a chunk, looks at its bytes one by one and returns a line at the first line feed.
The bytes of the chunk behind it are gone, and carriage returns are skipped.  So the lines are those
of the stream exactly if no chunk goes on behind its first line feed, a single carriage return
apart, and every carriage return stands in front of a line feed.
-/

namespace Mcpkit.Transport.Tls

open Json Protocol List Lines Except

/-- What `SSL_read` gives.  No bytes, or the end of the list, is an orderly close by the peer. -/
inductive SslRead where
  | data (chunk : Bytes)
  | wantRead
  | failed
  deriving DecidableEq, Repr

/-- What the loop over a chunk ends with: a line, the buffer so far with its capacity, or a line
that is too long. -/
inductive Scanned where
  | line (text : Bytes)
  | more (buf : Bytes) (cap : Nat)
  | tooLong
  deriving DecidableEq, Repr

def scanChunk (buf : Bytes) (cap : Nat) : Bytes → Scanned
  | [] => .more buf cap
  | c :: chunk =>
    if c = lf then .line (stripCr buf)
    else if c = cr then scanChunk buf cap chunk
    else if buf.length + 1 ≥ cap then
      if cap ≥ mcpProtocolMaxMessageBytes then .tooLong
      else scanChunk (buf ++ [c]) (cap * 2) chunk
    else scanChunk (buf ++ [c]) cap chunk

/-- The peer has closed the connection: what there is of a line is returned. -/
def atClose (buf : Bytes) : Except Status Bytes := if buf = [] then .error .io else .ok buf

def recvLoop (buf : Bytes) (cap : Nat) : List SslRead → Except Status Bytes × List SslRead
  | [] => (atClose buf, [])
  | .wantRead :: reads => recvLoop buf cap reads
  | .failed :: reads => (.error .io, reads)
  | .data chunk :: reads =>
    if chunk = [] then (atClose buf, reads)
    else
      match scanChunk buf cap chunk with
      | .line text => (.ok text, reads)
      | .tooLong => (.error .protocol, reads)
      | .more buf cap => recvLoop buf cap reads

def tlsRecv (reads : List SslRead) : Except Status Bytes × List SslRead := recvLoop [] 256 reads

def tlsCalls : Nat → List SslRead → List (Except Status Bytes)
  | 0, _ => []
  | calls + 1, reads => (tlsRecv reads).1 :: tlsCalls calls (tlsRecv reads).2

/-- The lines that a line feed ends, without a carriage return at the end, and the remainder. -/
def streamLines (raw : Bytes) (stream : Bytes) : List Bytes :=
  (complete lf raw stream).map stripCr ++
    if remainder lf raw stream = [] then [] else [remainder lf raw stream]

/-- Every carriage return stands in front of a line feed. -/
def crBeforeLf : Bytes → Bool
  | [] => true
  | c :: s => (c ≠ cr || s.head? = some lf) && crBeforeLf s

/-- Behind the first line feed of a chunk stands nothing or a single carriage return. -/
def endsWithLine (chunk : Bytes) : Bool :=
  (chunk.dropWhile (· ≠ lf)).drop 1 = [] || (chunk.dropWhile (· ≠ lf)).drop 1 = [cr]

/-- A line is shorter than the limit of the transport. -/
def fits (line : Bytes) : Bool := (stripCr line).length < mcpProtocolMaxMessageBytes

def noCr (s : Bytes) : Bytes := s.filter (· ≠ cr)

@[simp] theorem noCr_append (s t : Bytes) : noCr (s ++ t) = noCr s ++ noCr t := filter_append s t

theorem cr_notMem_noCr (s : Bytes) : cr ∉ noCr s := by simp [noCr]

variable {buf raw s : Bytes}

theorem noCr_of_notMem (h : cr ∉ s) : noCr s = s := by
  apply filter_eq_self.mpr
  intro c hc
  apply decide_eq_true
  rintro rfl
  exact h hc

theorem length_noCr_le (s : Bytes) : (noCr s).length ≤ (stripCr s).length := by
  rcases stripCr_cases s with h | h
  · rw [h]
    exact length_filter_le _ _
  · rw [h]
    simpa [noCr] using length_filter_le (fun c => !decide (c = cr)) (stripCr s)

theorem scanChunk_append {pre : Bytes} (cap : Nat) (hlf : lf ∉ pre)
    (hfits : (buf ++ noCr pre).length < mcpProtocolMaxMessageBytes) (rest : Bytes) :
    ∃ cap', scanChunk buf cap (pre ++ rest) = scanChunk (buf ++ noCr pre) cap' rest := by
  induction pre generalizing buf cap with
  | nil => exact ⟨cap, by simp [noCr]⟩
  | cons c pre ih =>
    rw [mem_cons, not_or] at hlf
    have hc : c ≠ lf := Ne.symm hlf.1
    rw [cons_append, scanChunk, if_neg hc]
    by_cases hcr : c = cr
    · have hskip : noCr (c :: pre) = noCr pre := by simp [noCr, hcr]
      rw [if_pos hcr]
      rw [hskip] at hfits ⊢
      exact ih cap hlf.2 hfits
    have hkeep : buf ++ noCr (c :: pre) = (buf ++ [c]) ++ noCr pre := by simp [noCr, hcr]
    rw [if_neg hcr]
    rw [hkeep] at hfits ⊢
    have hlen : buf.length + 1 < mcpProtocolMaxMessageBytes := by
      simp only [length_append, length_singleton] at hfits
      omega
    split
    · rw [if_neg (by omega)]
      exact ih (cap * 2) hlf.2 hfits
    · exact ih cap hlf.2 hfits

theorem scanChunk_line {pre : Bytes} (cap : Nat) (hlf : lf ∉ pre) (hcr : cr ∉ buf)
    (hfits : (buf ++ noCr pre).length < mcpProtocolMaxMessageBytes) (post : Bytes) :
    scanChunk buf cap (pre ++ lf :: post) = .line (buf ++ noCr pre) := by
  obtain ⟨cap', hscan⟩ := scanChunk_append cap hlf hfits (lf :: post)
  have hline : cr ∉ buf ++ noCr pre := by simp [hcr, cr_notMem_noCr]
  rw [hscan, scanChunk, if_pos rfl, stripCr_of_notMem hline]

theorem scanChunk_more {chunk : Bytes} (cap : Nat) (hlf : lf ∉ chunk)
    (hfits : (buf ++ noCr chunk).length < mcpProtocolMaxMessageBytes) :
    ∃ cap', scanChunk buf cap chunk = .more (buf ++ noCr chunk) cap' := by
  obtain ⟨cap', hscan⟩ := scanChunk_append cap hlf hfits []
  rw [append_nil] at hscan
  exact ⟨cap', hscan⟩

/-- The lines that are returned for a list of chunks, with what a call holds of a line. -/
def returned (buf : Bytes) : List Bytes → List Bytes
  | [] => if buf = [] then [] else [buf]
  | chunk :: chunks =>
    if lf ∈ chunk then (buf ++ noCr (chunk.takeWhile (· ≠ lf))) :: returned [] chunks
    else returned (buf ++ noCr chunk) chunks

/-- Results that are some lines and then `MCP_ERR_IO` for ever. -/
def linesThenIo (lines : List Bytes) (calls : Nat) : List (Except Status Bytes) :=
  (lines.map .ok).takeD calls (.error .io)

theorem linesThenIo_inj {lines lines' : List Bytes}
    (h : ∀ calls, linesThenIo lines calls = linesThenIo lines' calls) : lines = lines' := by
  have hio : ∀ ls : List Bytes, error Status.io ∉ ls.map ok := by
    intro ls hmem
    obtain ⟨l, -, hl⟩ := mem_map.mp hmem
    cases hl
  have hmap := eq_of_takeD_eq (hio lines) (hio lines') h
  apply map_injective_iff.mpr _ hmap
  intro l l' hl
  exact ok.inj hl

structure Limited (raw stream : Bytes) : Prop where
  lines : ∀ l ∈ complete lf raw stream, fits l = true
  rest : fits (remainder lf raw stream) = true

theorem Limited.append {t : Bytes} (h : Limited raw (t ++ s)) :
    Limited (remainder lf raw t) s where
  lines l hl := by
    apply h.lines
    rw [complete_append]
    exact mem_append_right _ hl
  rest := by
    rw [← remainder_append]
    exact h.rest

theorem Limited.length_lt (h : Limited raw s) : (noCr raw).length < mcpProtocolMaxMessageBytes := by
  have hline : ∀ line, fits (raw ++ line) = true →
      (noCr raw).length < mcpProtocolMaxMessageBytes := by
    intro line hfits
    have hle := length_noCr_le (raw ++ line)
    have hlt : (stripCr (raw ++ line)).length < mcpProtocolMaxMessageBytes :=
      of_decide_eq_true hfits
    rw [noCr_append, length_append] at hle
    omega
  by_cases hlf : lf ∈ s
  · obtain ⟨t, s, rfl, ht⟩ := eq_append_cons_of_mem hlf
    apply hline t
    apply h.lines
    rw [complete_append_sep ht]
    exact mem_cons_self
  · apply hline s
    rw [← remainder_of_notMem hlf]
    exact h.rest

/-- The call holds nothing but bytes of the line. -/
structure Holds (raw buf : Bytes) : Prop where
  sub : buf.Sublist raw
  crFree : cr ∉ buf

theorem Holds.append (h : Holds raw buf) (t : Bytes) :
    Holds (raw ++ t) (buf ++ noCr t) where
  sub := h.sub.append filter_sublist
  crFree := by simp [h.crFree, cr_notMem_noCr]

theorem Holds.length_lt (h : Holds raw buf) (hlim : Limited raw s) :
    buf.length < mcpProtocolMaxMessageBytes := by
  have hsub : buf.Sublist (noCr raw) := by
    rw [← noCr_of_notMem h.crFree]
    exact h.sub.filter _
  exact Nat.lt_of_le_of_lt hsub.length_le hlim.length_lt

theorem tlsCalls_nil (calls : Nat) : tlsCalls calls [] = List.replicate calls (.error .io) := by
  induction calls with
  | zero => rfl
  | succ calls ih => exact congrArg (error Status.io :: ·) ih

/-- A call returns the next line, and the calls behind it the others.  The induction is on the
chunks, with a call that holds a part of a line. -/
theorem calls_eq_linesThenIo {chunks : List Bytes} (hne : ∀ c ∈ chunks, c ≠ [])
    (hlim : Limited raw chunks.flatten) (hbuf : Holds raw buf) (cap calls : Nat) :
    (recvLoop buf cap (chunks.map .data)).1 ::
        tlsCalls calls (recvLoop buf cap (chunks.map .data)).2 =
      linesThenIo (returned buf chunks) (calls + 1) := by
  induction chunks generalizing raw buf cap calls with
  | nil =>
    by_cases hnil : buf = [] <;>
      simp [recvLoop, atClose, returned, hnil, tlsCalls_nil, linesThenIo]
  | cons chunk chunks ih =>
    have hchunk := hne chunk mem_cons_self
    have hlater : ∀ c ∈ chunks, c ≠ [] := fun c hc => hne c (mem_cons_of_mem _ hc)
    rw [flatten_cons] at hlim
    rw [map_cons, recvLoop, if_neg hchunk, returned]
    by_cases hlf : lf ∈ chunk
    · obtain ⟨pre, post, rfl, hpre⟩ := eq_append_cons_of_mem hlf
      have hsplit : pre ++ lf :: post ++ chunks.flatten = pre ++ (lf :: post ++ chunks.flatten) :=
        append_assoc _ _ _
      have hfits : (buf ++ noCr pre).length < mcpProtocolMaxMessageBytes := by
        have hfront := (hsplit ▸ hlim).append
        rw [remainder_of_notMem hpre] at hfront
        exact (hbuf.append pre).length_lt hfront
      have hempty : Holds (remainder lf raw (pre ++ lf :: post)) [] := ⟨nil_sublist _, not_mem_nil⟩
      rw [if_pos hlf, takeWhile_append_lf hpre, scanChunk_line cap hpre hbuf.crFree hfits]
      apply congrArg (ok (buf ++ noCr pre) :: ·)
      cases calls with
      | zero => rfl
      | succ calls => exact ih hlater hlim.append hempty 256 calls
    · have hfront := hlim.append
      rw [remainder_of_notMem hlf] at hfront
      obtain ⟨cap', hscan⟩ := scanChunk_more cap hlf ((hbuf.append chunk).length_lt hfront)
      rw [if_neg hlf, hscan]
      exact ih hlater hfront (hbuf.append chunk) cap' calls

/-- What is held of a line will be that line: all of it, or all but a carriage return that a line
feed has to follow. -/
def Sound (raw buf : Bytes) : Prop := raw = buf ∨ raw = buf ++ [cr]

theorem stripCr_eq_iff (h : cr ∉ buf) : stripCr raw = buf ↔ Sound raw buf := by
  constructor
  · intro heq
    rcases stripCr_cases raw with hraw | hraw
    · exact .inl (hraw ▸ heq)
    · exact .inr (heq ▸ hraw)
  · rintro (rfl | rfl)
    · exact stripCr_of_notMem h
    · exact stripCr_concat_cr buf

section

variable {raw buf s t : Bytes}

theorem crBeforeLf_of_notMem (h : cr ∉ s) : crBeforeLf s = true := by
  induction s with
  | nil => rfl
  | cons c s ih =>
    rw [mem_cons, not_or] at h
    simp [crBeforeLf, Ne.symm h.1, ih h.2]

theorem crBeforeLf_append_left (h : crBeforeLf (s ++ t) = true) :
    crBeforeLf (s ++ [lf]) = true := by
  induction s with
  | nil => rfl
  | cons c s ih =>
    simp only [cons_append, crBeforeLf, Bool.and_eq_true] at h ⊢
    refine ⟨?_, ih h.2⟩
    cases s with
    | nil => simp
    | cons d s => exact h.1

theorem crBeforeLf_append_right (h : crBeforeLf (s ++ t) = true) : crBeforeLf t = true := by
  induction s with
  | nil => exact h
  | cons c s ih => exact ih (Bool.and_eq_true_iff.mp h).2

theorem crBeforeLf_append_lf :
    crBeforeLf (s ++ lf :: t) = true ↔ crBeforeLf (s ++ [lf]) = true ∧ crBeforeLf t = true := by
  induction s with
  | nil => simp [crBeforeLf, lf, cr]
  | cons c s ih =>
    have hhead : (s ++ lf :: t).head? = (s ++ [lf]).head? := by cases s <;> rfl
    simp [crBeforeLf, ih, hhead, and_assoc]

theorem sound_noCr (hlf : lf ∉ s) (h : crBeforeLf (s ++ [lf]) = true) : Sound s (noCr s) := by
  induction s with
  | nil => exact .inl rfl
  | cons c s ih =>
    rw [mem_cons, not_or] at hlf
    simp only [cons_append, crBeforeLf, Bool.and_eq_true, Bool.or_eq_true, decide_eq_true_eq] at h
    by_cases hc : c = cr
    · have hnil : s = [] := by
        cases s with
        | nil => rfl
        | cons d s =>
          have hd : d = lf := by simpa [hc] using h.1
          simp [hd] at hlf
      right
      simp [hc, hnil, noCr]
    · have hkeep : noCr (c :: s) = c :: noCr s := by simp [noCr, hc]
      rw [hkeep]
      exact (ih hlf.2 h.2).imp (congrArg (c :: ·)) (congrArg (c :: ·))

theorem crBeforeLf_of_sound (hcr : cr ∉ buf) (h : Sound raw buf) :
    crBeforeLf (raw ++ [lf]) = true := by
  have hbuf : ∀ c ∈ buf, c ≠ cr := by
    rintro c hc rfl
    exact hcr hc
  rcases h with rfl | rfl
  · apply crBeforeLf_of_notMem
    simp only [mem_append, mem_singleton, not_or]
    exact ⟨hcr, by decide⟩
  rw [append_assoc]
  clear hcr
  induction buf with
  | nil => rfl
  | cons c buf ih =>
    have hc : c ≠ cr := hbuf c mem_cons_self
    have hrest := ih fun d hd => hbuf d (mem_cons_of_mem c hd)
    simp only [cons_append, crBeforeLf, Bool.and_eq_true]
    exact ⟨by simp [hc], hrest⟩

theorem Holds.sound_of_append (h : Holds raw buf)
    (hsound : Sound (raw ++ t) (buf ++ noCr t)) : Sound raw buf := by
  have hraw := h.sub.length_le
  have ht : (noCr t).length ≤ t.length := length_filter_le _ _
  rcases hsound with heq | heq
  · have hlen := congrArg List.length heq
    simp only [length_append] at hlen
    exact .inl (h.sub.eq_of_length (by omega)).symm
  have hlen := congrArg List.length heq
  simp only [length_append, length_singleton] at hlen
  by_cases hsame : buf.length = raw.length
  · exact .inl (h.sub.eq_of_length hsame).symm
  -- the carriage return was there before, and nothing may follow it
  have hsub : (noCr t).Sublist t := filter_sublist
  have hall : noCr t = t := hsub.eq_of_length (by omega)
  rcases eq_nil_or_concat t with rfl | ⟨t', c, rfl⟩
  · exact .inr (by simpa [noCr] using heq)
  have hlast : c = cr := by
    have hlasts := congrArg List.getLast? heq
    simpa [concat_eq_append, ← append_assoc] using hlasts
  have hmem : cr ∈ noCr (t'.concat c) := by
    rw [hall, hlast]
    simp
  exact absurd hmem (cr_notMem_noCr _)

theorem eq_nil_of_crBeforeLf (hlf : lf ∉ t) (hcr : crBeforeLf (cr :: (t ++ [lf])) = true) :
    t = [] := by
  have hhead : (t ++ [lf]).head? = some lf := by
    simpa [crBeforeLf] using (Bool.and_eq_true_iff.mp hcr).1
  cases t with
  | nil => rfl
  | cons c t =>
    have hc : c = lf := Option.some.inj hhead
    simp [hc] at hlf

theorem Holds.sound_append (h : Holds raw buf) (hlf : lf ∉ t) :
    Sound (raw ++ t) (buf ++ noCr t) ↔ Sound raw buf ∧ crBeforeLf (raw ++ t ++ [lf]) = true := by
  constructor
  · intro hsound
    exact ⟨h.sound_of_append hsound, crBeforeLf_of_sound (h.append t).crFree hsound⟩
  rintro ⟨rfl | rfl, hcr⟩
  · rw [append_assoc] at hcr
    rcases sound_noCr hlf (crBeforeLf_append_right hcr) with ht | ht
    · exact .inl (congrArg (raw ++ ·) ht)
    · right
      rw [append_assoc, ← ht]
  · rw [append_assoc, append_assoc] at hcr
    rw [eq_nil_of_crBeforeLf hlf (crBeforeLf_append_right hcr)]
    exact .inr (by simp [noCr])

end

section

variable {raw buf pre post s t : Bytes} {chunk : Bytes} {chunks : List Bytes}

theorem streamLines_append_of_notMem (h : lf ∉ t) :
    streamLines raw (t ++ s) = streamLines (raw ++ t) s := by
  simp only [streamLines, complete_append_of_notMem h, remainder_append_of_notMem h]

theorem streamLines_append_lf (h : lf ∉ t) :
    streamLines raw (t ++ lf :: s) = stripCr (raw ++ t) :: streamLines [] s := by
  simp [streamLines, complete_append_sep h, remainder_append_sep h]

theorem length_streamLines_le (raw t s : Bytes) :
    (streamLines [] s).length ≤ (streamLines raw (t ++ s)).length := by
  have hcount : (complete lf [] s).length =
      (complete lf (remainder lf raw t) s).length := length_complete _ _ _
  simp only [streamLines, complete_append, remainder_append, length_append, length_map, hcount]
  by_cases hrest : remainder lf [] s = []
  · rw [if_pos hrest, length_nil]
    omega
  · have hlater := remainder_ne_nil hrest (remainder lf raw t)
    simp [hrest, hlater]

theorem returned_of_notMem (h : lf ∉ chunk) :
    returned buf (chunk :: chunks) = returned (buf ++ noCr chunk) chunks := if_neg h

theorem returned_of_lf (h : lf ∉ pre) :
    returned buf ((pre ++ lf :: post) :: chunks) = (buf ++ noCr pre) :: returned [] chunks := by
  have hmem : lf ∈ pre ++ lf :: post := by simp
  rw [returned, if_pos hmem, takeWhile_append_lf h]

theorem length_returned_le (h : buf ≠ [] → raw ≠ []) :
    (returned buf chunks).length ≤ (streamLines raw chunks.flatten).length := by
  induction chunks generalizing raw buf with
  | nil =>
    by_cases hbuf : buf = []
    · simp [returned, hbuf]
    · simp [returned, streamLines, hbuf, h hbuf]
  | cons chunk chunks ih =>
    rw [flatten_cons]
    by_cases hlf : lf ∈ chunk
    · obtain ⟨pre, post, rfl, hpre⟩ := eq_append_cons_of_mem hlf
      have hfirst : (returned [] chunks).length ≤ (streamLines [] chunks.flatten).length :=
        ih fun hnil => absurd rfl hnil
      have hmore := length_streamLines_le [] post chunks.flatten
      rw [returned_of_lf hpre, append_assoc, cons_append, streamLines_append_lf hpre]
      simp only [length_cons]
      omega
    rw [returned_of_notMem hlf, streamLines_append_of_notMem hlf]
    apply ih
    intro hne hnil
    obtain ⟨hraw, hchunk⟩ := append_eq_nil_iff.mp hnil
    have hbuf : buf = [] := by
      by_contra hbuf
      exact h hbuf hraw
    simp [hbuf, hchunk, noCr] at hne

theorem endsWithLine_of_notMem (h : lf ∉ chunk) : endsWithLine chunk = true := by
  rw [endsWithLine, dropWhile_eq_nil_iff.mpr (ne_lf_of_notMem h)]
  rfl

theorem endsWithLine_append_lf (h : lf ∉ pre) :
    endsWithLine (pre ++ lf :: post) = true ↔ Sound post [] := by
  have hdrop : (pre ++ lf :: post).dropWhile (· ≠ lf) = lf :: post := by
    rw [dropWhile_append_of_pos (ne_lf_of_notMem h)]
    simp
  rw [endsWithLine, hdrop]
  simp [Sound]

theorem returned_ne_of_lf (h : lf ∈ post) :
    returned [] chunks ≠ streamLines [] (post ++ chunks.flatten) := by
  intro heq
  obtain ⟨t, t', rfl, ht⟩ := eq_append_cons_of_mem h
  rw [append_assoc, cons_append, streamLines_append_lf ht] at heq
  have hfew : (returned [] chunks).length ≤ (streamLines [] chunks.flatten).length :=
    length_returned_le fun hnil => absurd rfl hnil
  have hmore := length_streamLines_le [] t' chunks.flatten
  have hlen := congrArg List.length heq
  rw [length_cons] at hlen
  omega

theorem returned_nil_eq_iff (h : Holds raw buf) :
    returned buf [] = streamLines raw [] ↔ Sound raw buf ∧ crBeforeLf raw = true := by
  have hsame : returned buf [] = streamLines raw [] ↔ raw = buf := by
    by_cases hbuf : buf = [] <;> by_cases hraw : raw = [] <;>
      simp [returned, streamLines, hbuf, hraw, eq_comm]
  rw [hsame]
  constructor
  · rintro rfl
    exact ⟨.inl rfl, crBeforeLf_of_notMem h.crFree⟩
  · rintro ⟨rfl | rfl, hcr⟩
    · rfl
    · exact absurd (crBeforeLf_append_right hcr) (by decide)

/-- The lines that are returned are those of the stream exactly if what is held is sound, carriage
returns stand in front of line feeds and chunks end with a line. -/
theorem returned_eq_iff (h : Holds raw buf) :
    returned buf chunks = streamLines raw chunks.flatten ↔
      Sound raw buf ∧ crBeforeLf (raw ++ chunks.flatten) = true ∧
        ∀ chunk ∈ chunks, endsWithLine chunk = true := by
  induction chunks generalizing raw buf with
  | nil =>
    rw [flatten_nil, returned_nil_eq_iff h, append_nil]
    simp
  | cons chunk chunks ih =>
    rw [flatten_cons, forall_mem_cons]
    by_cases hlf : lf ∈ chunk
    · obtain ⟨pre, post, rfl, hpre⟩ := eq_append_cons_of_mem hlf
      have hsplit : pre ++ lf :: post ++ chunks.flatten = pre ++ lf :: (post ++ chunks.flatten) :=
        append_assoc _ _ _
      have hcrs : crBeforeLf (raw ++ (pre ++ lf :: (post ++ chunks.flatten))) = true ↔
          crBeforeLf (raw ++ pre ++ [lf]) = true ∧ crBeforeLf (post ++ chunks.flatten) = true := by
        rw [← append_assoc, crBeforeLf_append_lf]
      have hline : buf ++ noCr pre = stripCr (raw ++ pre) ↔
          Sound raw buf ∧ crBeforeLf (raw ++ pre ++ [lf]) = true := by
        rw [eq_comm, stripCr_eq_iff (h.append pre).crFree, h.sound_append hpre]
      rw [returned_of_lf hpre, hsplit, streamLines_append_lf hpre, List.cons.injEq, hline,
        endsWithLine_append_lf hpre, hcrs]
      by_cases hpost : lf ∈ post
      · constructor
        · rintro ⟨-, hreturned⟩
          exact absurd hreturned (returned_ne_of_lf hpost)
        · rintro ⟨-, -, rfl | rfl, -⟩
          · cases hpost
          · exact absurd hpost (by decide)
      have hrest : returned [] chunks = streamLines [] (post ++ chunks.flatten) ↔
          Sound post [] ∧ crBeforeLf (post ++ chunks.flatten) = true ∧
            ∀ chunk ∈ chunks, endsWithLine chunk = true := by
        rw [streamLines_append_of_notMem hpost]
        exact ih ⟨nil_sublist post, not_mem_nil⟩
      rw [hrest]
      tauto
    · rw [returned_of_notMem hlf, streamLines_append_of_notMem hlf, ih (h.append chunk),
        h.sound_append hlf]
      constructor
      · rintro ⟨⟨hsound, -⟩, hcr, hlater⟩
        exact ⟨hsound, by simpa using hcr, endsWithLine_of_notMem hlf, hlater⟩
      · rintro ⟨hsound, hcr, -, hlater⟩
        rw [← append_assoc] at hcr
        exact ⟨⟨hsound, crBeforeLf_append_left hcr⟩, hcr, hlater⟩

end

/-- The calls return the lines of the stream, the remainder and then `MCP_ERR_IO`, exactly if every
carriage return stands in front of a line feed and no chunk goes on behind its first line feed, a
single carriage return apart. -/
theorem tlsCalls_eq_iff {chunks : List Bytes} (hne : ∀ c ∈ chunks, c ≠ [])
    (hlim : Limited [] chunks.flatten) :
    (∀ calls, tlsCalls calls (chunks.map .data) =
      linesThenIo (streamLines [] chunks.flatten) calls) ↔
      crBeforeLf chunks.flatten = true ∧ ∀ chunk ∈ chunks, endsWithLine chunk = true := by
  have hempty : Holds [] [] := ⟨nil_sublist [], not_mem_nil⟩
  have hcalls : ∀ calls,
      tlsCalls calls (chunks.map .data) = linesThenIo (returned [] chunks) calls := by
    intro calls
    cases calls with
    | zero => rfl
    | succ calls => exact calls_eq_linesThenIo hne hlim hempty 256 calls
  have hiff : returned [] chunks = streamLines [] chunks.flatten ↔
      Sound [] [] ∧ crBeforeLf chunks.flatten = true ∧
        ∀ chunk ∈ chunks, endsWithLine chunk = true := returned_eq_iff hempty
  constructor
  · intro h
    have heq : returned [] chunks = streamLines [] chunks.flatten := by
      apply linesThenIo_inj
      intro calls
      exact (hcalls calls).symm.trans (h calls)
    exact (hiff.mp heq).2
  · intro h calls
    rw [hcalls, hiff.mpr ⟨.inl rfl, h⟩]

/-- The second of two lines in one read is lost. -/
theorem tlsCalls_twoLines :
    Limited [] "a\nb\n" ∧
      ¬∀ calls, tlsCalls calls [.data "a\nb\n"] =
        linesThenIo (streamLines [] "a\nb\n") calls := by
  refine ⟨⟨by decide, by decide⟩, ?_⟩
  intro h
  exact absurd (h 2) (by decide)

theorem tlsCalls_lineByLine :
    Limited [] "a\r\nbc" ∧
      ∀ calls, tlsCalls calls [.data "a\r", .data "\n", .data "bc"] =
        linesThenIo ["a", "bc"] calls := by
  have hlim : Limited [] "a\r\nbc" := ⟨by decide, by decide⟩
  exact ⟨hlim, (@tlsCalls_eq_iff ["a\r", "\n", "bc"] (by decide) hlim).mpr
    (by decide)⟩

end Mcpkit.Transport.Tls
