import Mathlib.Data.List.Sort
import Mcpkit.Runtime.Reactor

/-!
# The tables of the reactor

Each call leaves the tables well formed: the entries sorted by descriptor, and with `poll`
a slot for each entry behind the slot for the wakeup descriptor.  This holds also where a
call fails after it has grown some of the arrays.
-/

namespace Mcpkit.Runtime.Reactor

open List Block Option Nat

theorem bit_and_eq {k r : UInt32} {i : Nat} (hk : k.toBitVec = BitVec.twoPow 32 i)
    (h : r &&& k ≠ 0) : k &&& r = k := by
  rw [ne_eq, ← UInt32.toBitVec_inj, UInt32.toBitVec_and, hk, BitVec.and_twoPow] at h
  rw [← UInt32.toBitVec_inj, UInt32.toBitVec_and, hk, BitVec.twoPow_and]
  split at h
  · rename_i hbit
    rw [if_pos hbit]
  · exact absurd rfl h

theorem or_and_eq {a b r : UInt32} (ha : a &&& r = a) (hb : b &&& r = b) :
    (a ||| b) &&& r = a ||| b := by
  rw [← UInt32.toBitVec_inj] at ha hb ⊢
  refine BitVec.eq_of_getLsbD_eq fun i _ => ?_
  have hai := congrArg (BitVec.getLsbD · i) ha
  have hbi := congrArg (BitVec.getLsbD · i) hb
  simp only [UInt32.toBitVec_and, UInt32.toBitVec_or, BitVec.getLsbD_and, BitVec.getLsbD_or]
    at hai hbi ⊢
  rw [Bool.and_or_distrib_right, hai, hbi]

theorem reportedMask_and (readable writable failed : Bool) (registered : UInt32) :
    reportedMask readable writable failed registered &&& registered =
      reportedMask readable writable failed registered := by
  have hread : registered &&& mcpEventRead ≠ 0 → mcpEventRead &&& registered = mcpEventRead :=
    bit_and_eq (i := 0) (by decide)
  have hwrite : registered &&& mcpEventWrite ≠ 0 → mcpEventWrite &&& registered = mcpEventWrite :=
    bit_and_eq (i := 1) (by decide)
  have herror : registered &&& mcpEventError ≠ 0 → mcpEventError &&& registered = mcpEventError :=
    bit_and_eq (i := 2) (by decide)
  rw [reportedMask]
  split_ifs <;> simp_all [or_and_eq]

variable {C U : Type}

def PollFd.watch (slot : PollFd) : Int × UInt16 := (slot.fd, slot.events)

/-- What `poll` is to be asked for an entry. -/
def Entry.watch (e : Entry C U) : Int × UInt16 := (e.fd, mapToPollEvents e.events)

/-- The slots are for the wakeup descriptor and the entries of a list, in order. -/
structure State.Mirrors (r : State C U) (l : List (Entry C U)) : Prop where
  pollFdsSize : r.capacity + 1 ≤ r.pollFds.size ∧ r.pollFds.size ≤ newCapacity r.capacity + 1
  snapshotsSize : r.capacity ≤ r.snapshots.size ∧ r.snapshots.size ≤ newCapacity r.capacity
  slots : ∃ slots, r.pollFds.Holds 0 slots ∧
    slots.map PollFd.watch = (r.wakeupFd, pollIn) :: l.map Entry.watch

/-- The table holds the entries of a list, sorted by descriptor. -/
structure State.Represents (backend : Backend) (r : State C U) (l : List (Entry C U)) : Prop where
  count : r.count = l.length
  room : r.count ≤ r.capacity
  entriesSize : r.entries.size = r.capacity
  entries : r.entries.Holds 0 l
  sorted : l.Pairwise fun e e' => e.fd < e'.fd
  mirrors : backend = .poll → r.Mirrors l

/-- What no call changes. -/
structure Kept (r r' : State C U) : Prop where
  wakeupFd : r'.wakeupFd = r.wakeupFd
  snapshots : ∀ off snaps, r.snapshots.Holds off snaps → r'.snapshots.Holds off snaps

theorem Kept.refl (r : State C U) : Kept r r := ⟨rfl, fun _ _ h => h⟩

theorem Kept.trans {r r' r'' : State C U} (h : Kept r r') (h' : Kept r' r'') : Kept r r'' :=
  ⟨h'.wakeupFd.trans h.wakeupFd,
    fun off snaps hsnaps => h'.snapshots off snaps (h.snapshots off snaps hsnaps)⟩

theorem lt_newCapacity (capacity : Nat) : capacity < newCapacity capacity := by
  rw [newCapacity]
  split <;> omega

namespace State.Mirrors

variable {r : State C U} {l l₁ l₂ : List (Entry C U)}

theorem growPollFds (h : r.Mirrors l) :
    { r with pollFds := r.pollFds.resize (newCapacity r.capacity + 1) : State C U }.Mirrors l := by
  obtain ⟨slots, hslots, hwatch⟩ := h.slots
  have hsize := size_resize h.pollFdsSize.2
  refine ⟨⟨?_, hsize.le⟩, h.snapshotsSize, slots, hslots.resize h.pollFdsSize.2, hwatch⟩
  exact hsize.symm ▸ succ_le_succ (lt_newCapacity r.capacity).le

theorem growSnapshots (h : r.Mirrors l) :
    { r with snapshots := r.snapshots.resize (newCapacity r.capacity) : State C U }.Mirrors l := by
  have hsize := size_resize h.snapshotsSize.2
  exact ⟨h.pollFdsSize, ⟨hsize.symm ▸ (lt_newCapacity r.capacity).le, hsize.le⟩, h.slots⟩

theorem split (h : r.Mirrors (l₁ ++ l₂)) :
    ∃ s₁ s₂, r.pollFds.Holds 0 (s₁ ++ s₂) ∧ s₁.length = l₁.length + 1 ∧ s₂.length = l₂.length ∧
      s₁.map PollFd.watch = (r.wakeupFd, pollIn) :: l₁.map Entry.watch ∧
      s₂.map PollFd.watch = l₂.map Entry.watch := by
  obtain ⟨slots, hslots, hwatch⟩ := h.slots
  rw [map_append, ← cons_append] at hwatch
  obtain ⟨s₁, s₂, rfl, hs₁, hs₂⟩ := map_eq_append_iff.mp hwatch
  refine ⟨s₁, s₂, hslots, ?_, ?_, hs₁, hs₂⟩
  · simpa using congrArg List.length hs₁
  · simpa using congrArg List.length hs₂

end State.Mirrors

variable {e : Entry C U}

namespace State.Represents

variable {backend : Backend} {r : State C U} {l l₁ l₂ : List (Entry C U)}

theorem create (wakeupFd wakeupWriteFd : Int) :
    (mcpReactorCreate wakeupFd wakeupWriteFd : State C U).Represents backend [] where
  count := rfl
  room := le_refl 0
  entriesSize := rfl
  entries := holds_nil _ _
  sorted := .nil
  mirrors _ := by
    refine ⟨⟨le_refl 1, le_add_left 1 _⟩, ⟨le_refl 0, zero_le _⟩,
      [⟨wakeupFd, pollIn, 0⟩], ?_, rfl⟩
    exact holds_cons.mpr ⟨rfl, holds_nil _ _⟩

theorem find (h : r.Represents backend l) (fd : Int) :
    ∃ res, findEntryIdx r fd = some res ∧ Found Entry.fd fd l res := by
  rw [findEntryIdx, h.count]
  exact exists_search h.entries h.sorted

theorem growTables (h : r.Represents backend l) (grant : Grant) :
    ∃ r' status, growTables r grant backend = (r', status) ∧ r'.Represents backend l ∧
      Kept r r' ∧ (status = .ok ∧ r'.count < r'.capacity ∨ status = .noMem) := by
  have hlt := lt_newCapacity r.capacity
  have hentries : r.entries.size ≤ newCapacity r.capacity := h.entriesSize.le.trans hlt.le
  have hcount : r.count < newCapacity r.capacity := h.room.trans_lt hlt
  cases backend with
  | epoll =>
    rw [Reactor.growTables]
    split
    · exact ⟨r, .noMem, rfl, h, .refl r, .inr rfl⟩
    · refine ⟨_, .ok, rfl, ?_, ⟨rfl, fun _ _ h => h⟩, .inl ⟨rfl, hcount⟩⟩
      exact ⟨h.count, hcount.le, size_resize hentries, h.entries.resize hentries, h.sorted,
        fun hpoll => by cases hpoll⟩
  | poll =>
    have hpollFds := (h.mirrors rfl).growPollFds
    have hsnapshots := hpollFds.growSnapshots
    have hkept : ∀ off snaps, r.snapshots.Holds off snaps →
        (r.snapshots.resize (newCapacity r.capacity)).Holds off snaps := fun _ _ hsnaps =>
      hsnaps.resize (h.mirrors rfl).snapshotsSize.2
    rw [Reactor.growTables]
    split
    · exact ⟨r, .noMem, rfl, h, .refl r, .inr rfl⟩
    split
    · exact ⟨_, .noMem, rfl, { h with mirrors := fun _ => hpollFds },
        ⟨rfl, fun _ _ h => h⟩, .inr rfl⟩
    split
    · exact ⟨_, .noMem, rfl, { h with mirrors := fun _ => hsnapshots }, ⟨rfl, hkept⟩, .inr rfl⟩
    refine ⟨_, .ok, rfl, ?_, ⟨rfl, hkept⟩, .inl ⟨rfl, hcount⟩⟩
    refine ⟨h.count, hcount.le, size_resize hentries, h.entries.resize hentries,
      h.sorted, fun _ => ⟨?_, ?_, hsnapshots.slots⟩⟩
    · have hsize := size_resize (h.mirrors rfl).pollFdsSize.2
      exact ⟨hsize.ge, hsize.le.trans (succ_le_succ (lt_newCapacity _).le)⟩
    · have hsize := size_resize (h.mirrors rfl).snapshotsSize.2
      exact ⟨hsize.ge, hsize.le.trans (lt_newCapacity _).le⟩

theorem insertEntry (h : r.Represents backend (l₁ ++ l₂)) (hroom : r.count < r.capacity)
    (hlow : ∀ x ∈ l₁, x.fd < e.fd) (hhigh : ∀ x ∈ l₂, e.fd < x.fd) (ctlOk : Bool) :
    insertEntry r l₁.length e ctlOk backend = some (r, .io) ∨
      ∃ r', insertEntry r l₁.length e ctlOk backend = some (r', .ok) ∧ Kept r r' ∧
        r'.Represents backend (l₁ ++ e :: l₂) := by
  have hcount := h.count
  rw [length_append] at hcount
  have hsize : l₁.length + l₂.length < r.entries.size := by
    rwa [h.entriesSize, ← hcount]
  obtain ⟨entries, hinsert, hentriesSize, hentries⟩ := exists_insertAt h.entries hsize e
  have hcount' : r.count + 1 = (l₁ ++ e :: l₂).length := by simp [hcount, Nat.add_assoc]
  have hsorted : (l₁ ++ e :: l₂).Pairwise fun e e' => e.fd < e'.fd := by
    obtain ⟨h₁, h₂, hacross⟩ := pairwise_append.mp h.sorted
    refine pairwise_append.mpr ⟨h₁, pairwise_cons.mpr ⟨hhigh, h₂⟩, fun x hx y hy => ?_⟩
    obtain rfl | hy := mem_cons.mp hy
    · exact hlow x hx
    · exact hacross x hx y hy
  rw [← hcount] at hinsert
  cases backend with
  | epoll =>
    rw [Reactor.insertEntry]
    split
    · exact .inl rfl
    rw [hinsert]
    refine .inr ⟨_, rfl, ⟨rfl, fun _ _ hsnaps => hsnaps⟩, ?_⟩
    exact ⟨hcount', hroom, hentriesSize.trans h.entriesSize, hentries, hsorted,
      fun hpoll => by cases hpoll⟩
  | poll =>
    have hmirrors := h.mirrors rfl
    obtain ⟨s₁, s₂, hslots, hlen₁, hlen₂, hwatch₁, hwatch₂⟩ := hmirrors.split
    have hpollSize : s₁.length + s₂.length < r.pollFds.size := by
      have hle := hmirrors.pollFdsSize.1
      omega
    obtain ⟨pollFds, hslot, hpollFdsSize, hpollFds⟩ :=
      exists_insertAt hslots hpollSize ⟨e.fd, mapToPollEvents e.events, 0⟩
    rw [hlen₁, show l₁.length + 1 + s₂.length = r.count + 1 by omega] at hslot
    rw [Reactor.insertEntry, hslot, hinsert]
    refine .inr ⟨_, rfl, ⟨rfl, fun _ _ hsnaps => hsnaps⟩, ?_⟩
    refine ⟨hcount', hroom, hentriesSize.trans h.entriesSize, hentries, hsorted, fun _ => ?_⟩
    refine ⟨hpollFdsSize.symm ▸ hmirrors.pollFdsSize, hmirrors.snapshotsSize, _, hpollFds, ?_⟩
    simp [hwatch₁, hwatch₂, PollFd.watch, Entry.watch]

theorem updateEntry (h : r.Represents backend (l₁ ++ e :: l₂)) (events : UInt32) (ctlOk : Bool) :
    updateEntry r l₁.length events ctlOk backend = some (r, .io) ∨
      ∃ r', updateEntry r l₁.length events ctlOk backend = some (r', .ok) ∧ Kept r r' ∧
        r'.Represents backend (l₁ ++ { e with events := events } :: l₂) := by
  have hread : r.entries.read l₁.length = some e := h.entries.read_middle
  obtain ⟨entries, hwrite, hentriesSize, hentries⟩ :=
    exists_replace h.entries { e with events := events }
  have hcount : r.count = (l₁ ++ { e with events := events } :: l₂).length := by simpa using h.count
  have hsorted : (l₁ ++ { e with events := events } :: l₂).Pairwise
      fun e e' => e.fd < e'.fd := by
    simpa [pairwise_append] using h.sorted
  cases backend with
  | epoll =>
    rw [Reactor.updateEntry]
    split
    · exact .inl rfl
    simp only [hread, hwrite, bind_eq_bind, bind_some]
    refine .inr ⟨_, rfl, ⟨rfl, fun _ _ hsnaps => hsnaps⟩, ?_⟩
    exact ⟨hcount, h.room, hentriesSize.trans h.entriesSize, hentries, hsorted,
      fun hpoll => by cases hpoll⟩
  | poll =>
    have hmirrors := h.mirrors rfl
    obtain ⟨s₁, s₂, hslots, hlen₁, -, hwatch₁, hwatch₂⟩ := hmirrors.split
    obtain ⟨slot, s₂, rfl, hslot, hwatch₂⟩ := map_eq_cons_iff.mp hwatch₂
    have hreadSlot : r.pollFds.read (l₁.length + 1) = some slot := hlen₁ ▸ hslots.read_middle
    obtain ⟨pollFds, hwriteSlot, hpollFdsSize, hpollFds⟩ :=
      exists_replace hslots { slot with events := mapToPollEvents events }
    rw [hlen₁] at hwriteSlot
    simp only [Reactor.updateEntry, hreadSlot, hwriteSlot, hread, hwrite, bind_eq_bind, bind_some]
    refine .inr ⟨_, rfl, ⟨rfl, fun _ _ hsnaps => hsnaps⟩, ?_⟩
    refine ⟨hcount, h.room, hentriesSize.trans h.entriesSize, hentries, hsorted, fun _ => ?_⟩
    refine ⟨hpollFdsSize.symm ▸ hmirrors.pollFdsSize, hmirrors.snapshotsSize, _, hpollFds, ?_⟩
    have hfd : slot.fd = e.fd := congrArg Prod.fst hslot
    simp [hwatch₁, hwatch₂, PollFd.watch, Entry.watch, hfd]

theorem dropEntry (h : r.Represents backend (l₁ ++ e :: l₂)) :
    ∃ r', dropEntry r l₁.length backend = some (r', .ok) ∧ Kept r r' ∧
      r'.Represents backend (l₁ ++ l₂) := by
  have hcount := h.count
  rw [length_append, length_cons] at hcount
  have hroom := h.room
  have hsize : l₁.length + l₂.length < r.entries.size := by
    rw [h.entriesSize]
    omega
  obtain ⟨entries, herase, hentriesSize, hentries⟩ := exists_eraseAt h.entries hsize
  have hcount' : r.count - 1 = (l₁ ++ l₂).length := by
    rw [length_append]
    omega
  have hsorted : (l₁ ++ l₂).Pairwise fun e e' => e.fd < e'.fd :=
    h.sorted.sublist (sublist_cons_self e l₂ |>.append_left l₁)
  rw [← hcount] at herase
  cases backend with
  | epoll =>
    simp only [Reactor.dropEntry, herase, bind_eq_bind, bind_some]
    refine ⟨_, rfl, ⟨rfl, fun _ _ hsnaps => hsnaps⟩, ?_⟩
    exact ⟨hcount', le_trans (sub_le _ _) hroom, hentriesSize.trans h.entriesSize,
      hentries, hsorted, fun hpoll => by cases hpoll⟩
  | poll =>
    have hmirrors := h.mirrors rfl
    obtain ⟨s₁, s₂, hslots, hlen₁, hlen₂, hwatch₁, hwatch₂⟩ := hmirrors.split
    obtain ⟨slot, s₂, rfl, -, hwatch₂⟩ := map_eq_cons_iff.mp hwatch₂
    rw [length_cons, length_cons] at hlen₂
    have hpollSize : s₁.length + s₂.length < r.pollFds.size := by
      have hle := hmirrors.pollFdsSize.1
      omega
    obtain ⟨pollFds, heraseSlot, hpollFdsSize, hpollFds⟩ := exists_eraseAt hslots hpollSize
    rw [hlen₁, show l₁.length + 1 + (s₂.length + 1) = r.count + 1 by omega] at heraseSlot
    simp only [Reactor.dropEntry, heraseSlot, herase, bind_eq_bind, bind_some]
    refine ⟨_, rfl, ⟨rfl, fun _ _ hsnaps => hsnaps⟩, ?_⟩
    refine ⟨hcount', le_trans (sub_le _ _) hroom, hentriesSize.trans h.entriesSize,
      hentries, hsorted, fun _ => ?_⟩
    refine ⟨hpollFdsSize.symm ▸ hmirrors.pollFdsSize, hmirrors.snapshotsSize, _, hpollFds, ?_⟩
    simp [hwatch₁, hwatch₂]

end State.Represents

def registeredStep (l : List (Entry C U)) : Event C U → List (Entry C U)
  | .added e => l.orderedInsert (fun e e' => e.fd < e'.fd) e
  | .modified fd events => l.map fun e => if e.fd = fd then { e with events := events } else e
  | .removed fd => l.filter fun e => e.fd ≠ fd
  | _ => l

/-- The event is one of a successful call, with these entries before. -/
def Applies (l : List (Entry C U)) : Event C U → Prop
  | .added e => ∀ x ∈ l, x.fd ≠ e.fd
  | .modified fd _ => ∃ e ∈ l, e.fd = fd
  | .removed fd => ∃ e ∈ l, e.fd = fd
  | _ => False

section Parts

variable {l₁ l₂ : List (Entry C U)} {e : Entry C U}

theorem registeredStep_added (hlow : ∀ x ∈ l₁, x.fd < e.fd) (hhigh : ∀ x ∈ l₂, e.fd < x.fd) :
    registeredStep (l₁ ++ l₂) (.added e) = l₁ ++ e :: l₂ := by
  induction l₁ with
  | nil =>
    cases l₂ with
    | nil => rfl
    | cons x l₂ => exact if_pos (hhigh x mem_cons_self)
  | cons x l₁ ih =>
    obtain ⟨hx, hlow⟩ := forall_mem_cons.mp hlow
    exact (if_neg hx.not_gt).trans (congrArg (x :: ·) (ih hlow))

section

variable (h : (l₁ ++ e :: l₂).Pairwise fun e e' => e.fd < e'.fd)
include h

theorem ne_of_sorted : (∀ x ∈ l₁, x.fd ≠ e.fd) ∧ ∀ x ∈ l₂, x.fd ≠ e.fd := by
  obtain ⟨-, h₂, hacross⟩ := pairwise_append.mp h
  exact ⟨fun x hx => (hacross x hx e mem_cons_self).ne,
    fun x hx => ((pairwise_cons.mp h₂).1 x hx).ne'⟩

theorem registeredStep_modified (events : UInt32) :
    registeredStep (l₁ ++ e :: l₂) (.modified e.fd events) =
      l₁ ++ { e with events := events } :: l₂ := by
  have hsame : ∀ l : List (Entry C U), (∀ x ∈ l, x.fd ≠ e.fd) →
      l.map (fun x => if x.fd = e.fd then { x with events := events } else x) = l := by
    intro l hl
    exact (map_congr_left fun x hx => if_neg (hl x hx)).trans (map_id' l)
  obtain ⟨h₁, h₂⟩ := ne_of_sorted h
  simp [registeredStep, hsame l₁ h₁, hsame l₂ h₂]

theorem registeredStep_removed : registeredStep (l₁ ++ e :: l₂) (.removed e.fd) = l₁ ++ l₂ := by
  obtain ⟨h₁, h₂⟩ := ne_of_sorted h
  have hl₁ : l₁.filter (fun x => x.fd ≠ e.fd) = l₁ := filter_eq_self.mpr (by simpa using h₁)
  have hl₂ : l₂.filter (fun x => x.fd ≠ e.fd) = l₂ := filter_eq_self.mpr (by simpa using h₂)
  rw [registeredStep, filter_append, filter_cons_of_neg (by simp), hl₁, hl₂]

end

end Parts

/-- What a call can do to the tables if this is its effect when it succeeds. -/
inductive Outcome (backend : Backend) (r : State C U) (l : List (Entry C U))
    (effect : Option (Event C U)) : State C U × Status → Prop where
  | failed {r' : State C U} {status : Status} (hstatus : status ≠ .ok) (hkept : Kept r r')
      (hrep : r'.Represents backend l) : Outcome backend r l effect (r', status)
  | done {r' : State C U} {event : Event C U} (heffect : effect = some event) (hkept : Kept r r')
      (happlies : Applies l event) (hrep : r'.Represents backend (registeredStep l event)) :
      Outcome backend r l effect (r', .ok)

namespace State.Represents

variable {backend : Backend} {r : State C U} {l : List (Entry C U)}

theorem refused (h : r.Represents backend l) (effect : Option (Event C U)) {status : Status}
    (hstatus : status ≠ .ok) :
    ∃ res, some (r, status) = some res ∧ Outcome backend r l effect res :=
  ⟨_, rfl, .failed hstatus (.refl r) h⟩

theorem addEntry {l₁ l₂ : List (Entry C U)} (h : r.Represents backend (l₁ ++ l₂))
    (hlow : ∀ x ∈ l₁, x.fd < e.fd) (hhigh : ∀ x ∈ l₂, e.fd < x.fd) (grant : Grant) :
    ∃ res, Reactor.addEntry backend r l₁.length e grant = some res ∧
      Outcome backend r (l₁ ++ l₂) (some (.added e)) res := by
  obtain ⟨grown, status, hgrow, hrep, hkept, hcases⟩ :
      ∃ grown status, (if r.count = r.capacity then Reactor.growTables r grant backend
        else (r, Status.ok)) = (grown, status) ∧ grown.Represents backend (l₁ ++ l₂) ∧
          Kept r grown ∧
        (status = .ok ∧ grown.count < grown.capacity ∨ status = .noMem) := by
    split
    · exact h.growTables grant
    · rename_i hroom
      exact ⟨r, .ok, rfl, h, .refl r, .inl ⟨rfl, lt_of_le_of_ne h.room hroom⟩⟩
  rw [Reactor.addEntry, hgrow]
  obtain ⟨rfl, hroom⟩ | rfl := hcases
  · obtain hio | ⟨r', hinsert, hinserted, hrep'⟩ :=
      hrep.insertEntry hroom hlow hhigh grant.ctlOk
    · exact ⟨_, hio, .failed (by simp) hkept hrep⟩
    refine ⟨_, hinsert, .done rfl (hkept.trans hinserted) (fun x hx => ?_) ?_⟩
    · obtain hx | hx := mem_append.mp hx
      · exact (hlow x hx).ne
      · exact (hhigh x hx).ne'
    · rwa [registeredStep_added hlow hhigh]
  · exact ⟨_, rfl, .failed (by simp) hkept hrep⟩

/-- Every call leaves a table: the same one where it fails, and else one with its effect. -/
theorem call (h : r.Represents backend l) (number : Nat) (c : Call C U) :
    ∃ res, call backend r number c = some res ∧ Outcome backend r l (c.effect number) res := by
  cases c with
  | add fd events cb user grant =>
    cases cb with
    | none => exact h.refused _ (by simp)
    | some cb =>
      rw [Reactor.call, mcpReactorAdd]
      split
      · exact h.refused _ (by simp)
      split
      · exact h.refused _ (by simp)
      split
      · exact h.refused _ (by simp)
      obtain ⟨res, hfind, hfound⟩ := h.find fd
      rw [hfind]
      cases hfound with
      | there _ => exact h.refused _ (by simp)
      | missing hlow hhigh => exact h.addEntry hlow hhigh grant
  | modify fd events ctlOk =>
    rw [Reactor.call, mcpReactorModify]
    split
    · exact h.refused _ (by simp)
    split
    · exact h.refused _ (by simp)
    obtain ⟨res, hfind, hfound⟩ := h.find fd
    rw [hfind]
    cases hfound with
    | missing _ _ => exact h.refused _ (by simp)
    | there hfd =>
      subst hfd
      obtain hio | ⟨r', hupdate, hkept, hrep⟩ := h.updateEntry events ctlOk
      · exact ⟨_, hio, .failed (by simp) (.refl r) h⟩
      · refine ⟨_, hupdate, .done rfl hkept ⟨_, by simp, rfl⟩ ?_⟩
        rwa [registeredStep_modified h.sorted]
  | remove fd =>
    rw [Reactor.call, mcpReactorRemove]
    split
    · exact h.refused _ (by simp)
    obtain ⟨res, hfind, hfound⟩ := h.find fd
    rw [hfind]
    cases hfound with
    | missing _ _ => exact h.refused _ (by simp)
    | there hfd =>
      subst hfd
      obtain ⟨r', hdrop, hkept, hrep⟩ := h.dropEntry
      refine ⟨_, hdrop, .done rfl hkept ⟨_, by simp, rfl⟩ ?_⟩
      rwa [registeredStep_removed h.sorted]

theorem table_eq (h : r.Represents backend l) : r.table = l := by
  rw [State.table, h.count]
  exact h.entries.toList_eq

end State.Represents

end Mcpkit.Runtime.Reactor
