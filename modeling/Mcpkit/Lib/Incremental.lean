import Mcpkit.Lib.Framing

/-!
# Consuming a stream as it arrives

A receiver keeps the bytes that it could not use yet.  When more arrives it
appends them, takes the complete messages off the front and hands each to a
step that may stop it.

A scanner is stable if what it says about a buffer, once it no longer asks for
more, does not depend on what follows.  With a stable scanner the outcome
depends on the bytes alone, and not on how they were cut into reads.
-/

namespace Incremental

open List Nat Prod

open Framing (Scan)

variable {α Q σ : Type*}

/-- A verdict other than `more` does not depend on the bytes behind the buffer. -/
structure Stable (scan : List α → Scan Q) : Prop where
  size_pos : ∀ {buf q n}, scan buf = .item q n → 0 < n
  size_le : ∀ {buf q n}, scan buf = .item q n → n ≤ buf.length
  item_append : ∀ {buf q n} rest, scan buf = .item q n → scan (buf ++ rest) = .item q n
  bad_append : ∀ {buf} rest, scan buf = .bad → scan (buf ++ rest) = .bad

variable {n : Nat} {q : Q} {buf : List α} {s s' : σ}

theorem Stable.more_of_part {scan : List α → Scan Q} (h : Stable scan) {part rest : List α}
    (hwhole : scan (part ++ rest) = .item q n) (hlt : part.length < n) : scan part = .more := by
  cases hpart : scan part with
  | more => rfl
  | bad =>
    rw [h.bad_append rest hpart] at hwhole
    cases hwhole
  | item q' n' =>
    have hle := h.size_le hpart
    rw [h.item_append rest hpart] at hwhole
    cases hwhole
    omega

/-- The scanner with the size of each message as a part of it. -/
def sized (scan : List α → Scan Q) (buf : List α) : Scan (Q × Nat) :=
  match scan buf with
  | .more => .more
  | .bad => .bad
  | .item q n => .item (q, n) n

theorem sized_of_item {scan : List α → Scan Q} (h : scan buf = .item q n) :
    sized scan buf = .item (q, n) n := by
  rw [sized, h]

theorem item_of_sized {scan : List α → Scan Q} {p : Q × Nat} (h : sized scan buf = .item p n) :
    scan buf = .item p.1 n := by
  rw [sized] at h
  split at h
  · cases h
  · cases h
  next hscan =>
    cases h
    exact hscan

theorem Stable.sized {scan : List α → Scan Q} (h : Stable scan) : Stable (sized scan) where
  size_pos hitem := h.size_pos (item_of_sized hitem)
  size_le hitem := h.size_le (item_of_sized hitem)
  item_append := by
    intro buf p n rest hitem
    have hscan := h.item_append rest (item_of_sized hitem)
    rw [Incremental.sized] at hitem ⊢
    rw [hscan]
    split at hitem
    · cases hitem
    · cases hitem
    · cases hitem
      rfl
  bad_append := by
    intro buf rest hbad
    rw [Incremental.sized] at hbad ⊢
    split at hbad
    · cases hbad
    next hscan => rw [h.bad_append rest hscan]
    · cases hbad

/-- Where a receiver stands: with a state and the bytes that it could not use yet, or stopped. -/
inductive Outcome (σ α : Type*) where
  | running (s : σ) (rest : List α)
  | stopped (s : σ)

namespace Outcome

/-- The state in which a receiver stands. -/
def state : Outcome σ α → σ
  | running s _ => s
  | stopped s => s

/-- What is seen of the state of a receiver. -/
def map {τ : Type*} (f : σ → τ) : Outcome σ α → Outcome τ α
  | running s rest => running (f s) rest
  | stopped s => stopped (f s)

end Outcome

section

variable (scan : List α → Scan Q) (step : σ → Q → σ × Bool)

/-- Take messages off the buffer until the scanner asks for more or the step stops. -/
def consume : Nat → σ → List α → Outcome σ α
  | 0, s, buf => .running s buf
  | fuel + 1, s, buf =>
    match scan buf with
    | .more => .running s buf
    | .bad => .stopped s
    | .item q n =>
      match step s q with
      | (s', true) => consume fuel s' (buf.drop n)
      | (s', false) => .stopped s'

/-- Every message takes at least one byte, so this is enough fuel. -/
def consumeAll (s : σ) (buf : List α) : Outcome σ α := consume scan step (buf.length + 1) s buf

def feed (o : Outcome σ α) (read : List α) : Outcome σ α :=
  match o with
  | .running s rest => consumeAll scan step s (rest ++ read)
  | .stopped s => .stopped s

/-- The steps of a list of messages, until one stops. -/
def steps : σ → List Q → σ × Bool
  | s, [] => (s, true)
  | s, q :: qs =>
    match step s q with
    | (s', true) => steps s' qs
    | (s', false) => (s', false)

end

/-- Where the receiver stands after some steps, with nothing left over. -/
def settled (r : σ × Bool) : Outcome σ α := if r.2 then .running r.1 [] else .stopped r.1

variable {scan : List α → Scan Q} {step : σ → Q → σ × Bool}

theorem consume_of_more (h : scan buf = .more) (fuel : Nat) :
    consume scan step fuel s buf = .running s buf := by
  cases fuel with
  | zero => rfl
  | succ fuel => rw [consume, h]

theorem consume_eq (hstable : Stable scan) {fuel : Nat} (hfuel : buf.length < fuel) :
    consume scan step fuel s buf = consumeAll scan step s buf := by
  have hboth : ∀ m n s (buf : List α), buf.length < m → buf.length < n →
      consume scan step m s buf = consume scan step n s buf := by
    intro m
    induction m with
    | zero =>
      intro n s buf hm
      omega
    | succ m ih =>
      intro n s buf hm hn
      obtain ⟨n, rfl⟩ : ∃ n', n = n' + 1 := ⟨n - 1, by omega⟩
      rw [consume, consume]
      cases hscan : scan buf with
      | more | bad => rfl
      | item q size =>
        have hpos := hstable.size_pos hscan
        have hle := hstable.size_le hscan
        have hlength : (buf.drop size).length = buf.length - size := length_drop
        dsimp only
        cases step s q with
        | mk s' go =>
          cases go with
          | false => rfl
          | true => exact ih n s' (buf.drop size) (by omega) (by omega)
  exact hboth _ _ s buf hfuel (lt_succ_self _)

theorem consumeAll_of_more (h : scan buf = .more) : consumeAll scan step s buf = .running s buf :=
  consume_of_more h _

theorem consumeAll_of_bad (h : scan buf = .bad) : consumeAll scan step s buf = .stopped s := by
  rw [consumeAll, consume, h]

theorem consumeAll_of_stop (h : scan buf = .item q n) (hstep : step s q = (s', false)) :
    consumeAll scan step s buf = .stopped s' := by
  rw [consumeAll, consume, h]
  dsimp only
  rw [hstep]

section

variable (hstable : Stable scan)
include hstable

theorem consumeAll_of_go (h : scan buf = .item q n) (hstep : step s q = (s', true)) :
    consumeAll scan step s buf = consumeAll scan step s' (buf.drop n) := by
  have hpos := hstable.size_pos h
  have hle := hstable.size_le h
  have hlength : (buf.drop n).length = buf.length - n := length_drop
  rw [consumeAll, consume, h]
  dsimp only
  rw [hstep]
  exact consume_eq hstable (by omega)

/-- A read after a buffer is the same as the longer buffer.  The induction is on the length of the
buffer, with one message taken off its front. -/
theorem feed_consumeAll (s : σ) (buf read : List α) :
    feed scan step (consumeAll scan step s buf) read = consumeAll scan step s (buf ++ read) := by
  induction hn : buf.length using Nat.strongRecOn generalizing s buf with
  | ind n ih =>
    cases hscan : scan buf with
    | more => rw [consumeAll_of_more hscan, feed]
    | bad => rw [consumeAll_of_bad hscan, consumeAll_of_bad (hstable.bad_append read hscan), feed]
    | item q size =>
      have hscan' := hstable.item_append read hscan
      have hpos := hstable.size_pos hscan
      have hle := hstable.size_le hscan
      have hlength : (buf.drop size).length = buf.length - size := length_drop
      cases hstep : step s q with
      | mk s' go =>
        cases go with
        | false => rw [consumeAll_of_stop hscan hstep, consumeAll_of_stop hscan' hstep, feed]
        | true =>
          rw [consumeAll_of_go hstable hscan hstep, consumeAll_of_go hstable hscan' hstep,
            drop_append_of_le_length hle]
          exact ih _ (by omega) s' _ rfl

/-- Only the bytes count, not how they were cut into reads. -/
theorem foldl_feed (s : σ) (buf : List α) (reads : List (List α)) :
    reads.foldl (feed scan step) (consumeAll scan step s buf) =
      consumeAll scan step s (buf ++ reads.flatten) := by
  induction reads generalizing buf with
  | nil => rw [foldl_nil, flatten_nil, append_nil]
  | cons read reads ih => rw [foldl_cons, feed_consumeAll hstable, ih, flatten_cons, append_assoc]

theorem consumeAll_stream (hnil : scan [] = .more) (s : σ)
    (ms : List (List α × Q)) (hms : ∀ m ∈ ms, scan m.1 = .item m.2 m.1.length) :
    consumeAll scan step s (ms.map fst).flatten =
      settled (steps step s (ms.map snd)) := by
  induction ms generalizing s with
  | nil => exact consumeAll_of_more hnil
  | cons m ms ih =>
    have hscan : scan (m.1 ++ (ms.map fst).flatten) = .item m.2 m.1.length :=
      hstable.item_append _ (hms m mem_cons_self)
    rw [map_cons, map_cons, flatten_cons, steps]
    cases hstep : step s m.2 with
    | mk s' go =>
      cases go with
      | false => exact consumeAll_of_stop hscan hstep
      | true =>
        rw [consumeAll_of_go hstable hscan hstep, drop_left]
        exact ih s' fun m' hm' => hms m' (mem_cons_of_mem m hm')

theorem length_rest_le (hnil : scan [] = .more) {bound : Nat}
    {ms : List (List α × Q)} (hms : ∀ m ∈ ms, scan m.1 = .item m.2 m.1.length)
    (hbound : ∀ m ∈ ms, m.1.length ≤ bound) {seen later : List α}
    (hstream : seen ++ later = (ms.map fst).flatten) {rest : List α}
    (h : consumeAll scan step s seen = .running s' rest) : rest.length ≤ bound := by
  induction ms generalizing seen s with
  | nil =>
    obtain rfl : seen = [] := (append_eq_nil_iff.mp hstream).1
    rw [consumeAll_of_more hnil] at h
    cases h
    exact zero_le _
  | cons m ms ih =>
    rw [map_cons, flatten_cons] at hstream
    have hm := hms m mem_cons_self
    have hwhole : scan (seen ++ later) = .item m.2 m.1.length := by
      rw [hstream]
      exact hstable.item_append _ hm
    by_cases hlt : seen.length < m.1.length
    · rw [consumeAll_of_more (hstable.more_of_part hwhole hlt)] at h
      cases h
      exact Nat.le_trans (Nat.le_of_lt hlt) (hbound m mem_cons_self)
    obtain ⟨seen', rfl⟩ : m.1 <+: seen :=
      prefix_of_prefix_length_le ⟨_, hstream.symm⟩ ⟨later, rfl⟩ (Nat.not_lt.mp hlt)
    rw [append_assoc] at hstream
    have hscan : scan (m.1 ++ seen') = .item m.2 m.1.length := hstable.item_append seen' hm
    cases hstep : step s m.2 with
    | mk s₁ go =>
      cases go with
      | false =>
        rw [consumeAll_of_stop hscan hstep] at h
        cases h
      | true =>
        rw [consumeAll_of_go hstable hscan hstep, drop_left] at h
        exact ih (fun m' hm' => hms m' (mem_cons_of_mem m hm'))
          (fun m' hm' => hbound m' (mem_cons_of_mem m hm'))
          (append_cancel_left hstream) h

end

theorem steps_append_of_go {qs : List Q} (h : steps step s qs = (s', true)) (rs : List Q) :
    steps step s (qs ++ rs) = steps step s' rs := by
  induction qs generalizing s with
  | nil =>
    cases h
    rfl
  | cons q qs ih =>
    rw [cons_append, steps]
    rw [steps] at h
    cases hstep : step s q with
    | mk s₁ go =>
      rw [hstep] at h
      cases go with
      | false => cases h
      | true => exact ih h

theorem steps_cons_of_stop (h : step s q = (s', false)) (qs : List Q) :
    steps step s (q :: qs) = (s', false) := by
  rw [steps, h]

theorem consumeAll_map {τ : Type*} {step' : τ → Q → τ × Bool} {see : σ → τ}
    (hsee : ∀ s q, step' (see s) q = (see (step s q).1, (step s q).2)) (s : σ) (buf : List α) :
    consumeAll scan step' (see s) buf = (consumeAll scan step s buf).map see := by
  have hboth : ∀ fuel s (buf : List α),
      consume scan step' fuel (see s) buf = (consume scan step fuel s buf).map see := by
    intro fuel
    induction fuel with
    | zero =>
      intro s buf
      rfl
    | succ fuel ih =>
      intro s buf
      rw [consume, consume]
      cases scan buf with
      | more | bad => rfl
      | item q n =>
        dsimp only
        rw [hsee]
        cases step s q with
        | mk s₁ go =>
          cases go with
          | false => rfl
          | true => exact ih s₁ (buf.drop n)
  exact hboth _ s buf

theorem consumeAll_invariant {I : σ → Prop} (hstep : ∀ s q, I s → I (step s q).1) (h : I s)
    (buf : List α) : I (consumeAll scan step s buf).state := by
  have hall : ∀ fuel s (buf : List α), I s → I (consume scan step fuel s buf).state := by
    intro fuel
    induction fuel with
    | zero =>
      intro s buf hs
      exact hs
    | succ fuel ih =>
      intro s buf hs
      rw [consume]
      cases scan buf with
      | more | bad => exact hs
      | item q n =>
        have hnext := hstep s q hs
        dsimp only
        cases hq : step s q with
        | mk s₁ go =>
          rw [hq] at hnext
          cases go with
          | false => exact hnext
          | true => exact ih s₁ (buf.drop n) hnext
  exact hall _ s buf h

section Tally

variable (scan)

/-- The messages at the front of a buffer, each with its weight. -/
def tally (weight : Q → Nat) (buf : List α) : Nat :=
  (consumeAll scan (fun n q => (n + weight q, true)) 0 buf).state

variable {scan} {weight : Q → Nat}

theorem le_consume_tally (fuel n : Nat) (buf : List α) :
    n ≤ (consume scan (fun n q => (n + weight q, true)) fuel n buf).state := by
  induction fuel generalizing n buf with
  | zero => exact Nat.le_refl n
  | succ fuel ih =>
    rw [consume]
    cases scan buf with
    | more | bad => exact Nat.le_refl n
    | item q k => exact Nat.le_trans (Nat.le_add_right n (weight q)) (ih _ _)

theorem consumeAll_le_tally {measure : σ → Nat}
    (hstep : ∀ s q, measure (step s q).1 ≤ measure s + weight q) (hs : measure s = 0)
    (buf : List α) : measure (consumeAll scan step s buf).state ≤ tally scan weight buf := by
  have hall : ∀ fuel s n (buf : List α), measure s ≤ n →
      measure (consume scan step fuel s buf).state ≤
        (consume scan (fun n q => (n + weight q, true)) fuel n buf).state := by
    intro fuel
    induction fuel with
    | zero =>
      intro s n buf hle
      exact hle
    | succ fuel ih =>
      intro s n buf hle
      rw [consume, consume]
      cases scan buf with
      | more | bad => exact hle
      | item q k =>
        have hnext : measure (step s q).1 ≤ n + weight q :=
          Nat.le_trans (hstep s q) (Nat.add_le_add_right hle _)
        dsimp only
        cases hq : step s q with
        | mk s₁ go =>
          rw [hq] at hnext
          cases go with
          | false => exact Nat.le_trans hnext (le_consume_tally fuel _ _)
          | true => exact ih s₁ _ (buf.drop k) hnext
  exact hall _ s 0 buf (Nat.le_of_eq hs)

end Tally

end Incremental
