import Mcpkit.Transport.StreamableHttp

/-!
# The session table of the HTTP endpoint

The table is sound when its used slots hold distinct sessions under distinct ids, which are the
registered sessions that the loop created.  A request keeps it sound with two exceptions.  A
stateless message that names a session makes `handle_post` destroy that session and leave its slot
in use.  An `initialize` request takes the next id of a 32-bit counter without looking whether a
slot still has that id.
-/

namespace Mcpkit.Transport

open Json Protocol List Machine Option Nat Prod

variable {W : Type}

variable {i j : Fin mcpHttpMaxSessions} {t : SessionTable} {slot : Slot}

theorem tableFind_eq_some {sid : Bytes} (h : tableFind t sid = some (i, slot)) :
    t.slots i = some slot ∧ slot.id = sid := by
  obtain ⟨j, -, hj⟩ := exists_of_findSome?_eq_some h
  simp only [map_eq_some_iff, filter_eq_some_iff, beq_iff_eq, mk.injEq] at hj
  obtain ⟨slot', ⟨hslot, hid⟩, rfl, rfl⟩ := hj
  exact ⟨hslot, hid⟩

theorem tableFind_eq_none {sid : Bytes} (h : tableFind t sid = none)
    (hslot : t.slots i = some slot) : slot.id ≠ sid := by
  have hi := findSome?_eq_none_iff.mp h i (mem_finRange i)
  simp only [hslot, map_eq_none_iff, filter_eq_none_iff, Option.some.injEq] at hi
  simpa using hi

theorem unusedSlot_eq_some (h : unusedSlot t = some i) : t.slots i = none := by
  simpa using find?_some h

theorem unusedSlot_eq_none (h : unusedSlot t = none) (i : Fin mcpHttpMaxSessions) :
    t.slots i ≠ none := by
  simpa using find?_eq_none.mp h i (mem_finRange i)

theorem slots_take {sess : Nat} :
    (t.take i sess).slots j = some slot ↔
      (j = i ∧ slot = ⟨sessionId t.nextId, sess⟩) ∨ (j ≠ i ∧ t.slots j = some slot) := by
  by_cases hj : j = i
  · subst hj
    simp [SessionTable.take, eq_comm]
  · simp [SessionTable.take, hj]

theorem slots_release : (t.release i).slots j = some slot ↔ j ≠ i ∧ t.slots j = some slot := by
  by_cases hj : j = i
  · subst hj
    simp [SessionTable.release]
  · simp [SessionTable.release, hj]

/-- The registered sessions that are not the host's own are the ones in used slots, each in one slot
and under an id of its own. -/
structure TableSound (foreign : List Nat) (sessions : Pool Session) (t : SessionTable) : Prop where
  owned : ∀ r, (r ∈ sessions.handles ∧ r ∉ foreign) ↔
    ∃ i slot, t.slots i = some slot ∧ slot.sess = r
  sess_inj : ∀ i j a b, t.slots i = some a → t.slots j = some b → a.sess = b.sess → i = j
  id_inj : ∀ i j a b, t.slots i = some a → t.slots j = some b → a.id = b.id → i = j
  handed_out : ∀ r ∈ foreign, r < sessions.next

namespace TableSound

variable {foreign : List Nat} {p p' : Pool Session} {t : SessionTable}
  {i : Fin mcpHttpMaxSessions} {slot : Slot}

theorem registered (h : TableSound foreign p t) (hi : t.slots i = some slot) :
    slot.sess ∈ p.handles :=
  ((h.owned slot.sess).mpr ⟨i, slot, hi, rfl⟩).1

theorem sess_ne_next (h : TableSound foreign p t) (hi : t.slots i = some slot) :
    slot.sess ≠ p.next := by
  intro heq
  have hmem := h.registered hi
  rw [heq] at hmem
  exact p.next_notMem hmem

theorem initial (p : Pool Session) : TableSound p.handles p .initial where
  owned r := by simp [SessionTable.initial]
  sess_inj := by simp [SessionTable.initial]
  id_inj := by simp [SessionTable.initial]
  handed_out := p.lt_next

theorem of_handles (h : TableSound foreign p t) (hp : ∀ r, r ∈ p'.handles ↔ r ∈ p.handles)
    (hnext : p.next ≤ p'.next) : TableSound foreign p' t where
  owned r := by rw [hp, h.owned]
  sess_inj := h.sess_inj
  id_inj := h.id_inj
  handed_out r hr := lt_of_lt_of_le (h.handed_out r hr) hnext

theorem take (h : TableSound foreign p t) (hi : t.slots i = none)
    (hid : ∀ j slot, t.slots j = some slot → slot.id ≠ sessionId t.nextId)
    (hp : ∀ r, r ∈ p'.handles ↔ r ∈ p.handles ∨ r = p.next) (hnext : p.next ≤ p'.next) :
    TableSound foreign p' (t.take i p.next) where
  owned r := by
    have hforeign : p.next ∉ foreign := fun hr => lt_irrefl _ (h.handed_out _ hr)
    rw [hp]
    constructor
    · rintro ⟨hr | rfl, hnot⟩
      · obtain ⟨j, slot, hj, rfl⟩ := (h.owned r).mp ⟨hr, hnot⟩
        refine ⟨j, slot, slots_take.mpr (.inr ⟨?_, hj⟩), rfl⟩
        rintro rfl
        simp [hi] at hj
      · exact ⟨i, _, slots_take.mpr (.inl ⟨rfl, rfl⟩), rfl⟩
    · rintro ⟨j, slot, hj, rfl⟩
      rcases slots_take.mp hj with ⟨-, rfl⟩ | ⟨-, hj⟩
      · exact ⟨.inr rfl, hforeign⟩
      · exact ((h.owned _).mpr ⟨j, slot, hj, rfl⟩).imp_left .inl
  sess_inj j k a b hj hk hab := by
    rcases slots_take.mp hj with ⟨rfl, rfl⟩ | ⟨-, hj'⟩ <;>
      rcases slots_take.mp hk with ⟨rfl, rfl⟩ | ⟨-, hk'⟩
    · rfl
    · exact absurd hab.symm (h.sess_ne_next hk')
    · exact absurd hab (h.sess_ne_next hj')
    · exact h.sess_inj j k a b hj' hk' hab
  id_inj j k a b hj hk hab := by
    rcases slots_take.mp hj with ⟨rfl, rfl⟩ | ⟨-, hj'⟩ <;>
      rcases slots_take.mp hk with ⟨rfl, rfl⟩ | ⟨-, hk'⟩
    · rfl
    · exact absurd hab.symm (hid k b hk')
    · exact absurd hab (hid j a hj')
    · exact h.id_inj j k a b hj' hk' hab
  handed_out r hr := lt_of_lt_of_le (h.handed_out r hr) hnext

theorem release (h : TableSound foreign p t) (hi : t.slots i = some slot)
    (hp : ∀ r, r ∈ p'.handles ↔ r ≠ slot.sess ∧ r ∈ p.handles) (hnext : p.next ≤ p'.next) :
    TableSound foreign p' (t.release i) where
  owned r := by
    rw [hp, and_assoc, h.owned]
    constructor
    · rintro ⟨hne, j, other, hj, rfl⟩
      refine ⟨j, other, slots_release.mpr ⟨?_, hj⟩, rfl⟩
      rintro rfl
      exact hne (congrArg Slot.sess (Option.some.inj (hj.symm.trans hi)))
    · rintro ⟨j, other, hj, rfl⟩
      obtain ⟨hne, hj⟩ := slots_release.mp hj
      exact ⟨fun hsess => hne (h.sess_inj j i other slot hj hi hsess), j, other, hj, rfl⟩
  sess_inj j k a b hj hk := h.sess_inj j k a b (slots_release.mp hj).2 (slots_release.mp hk).2
  id_inj j k a b hj hk := h.id_inj j k a b (slots_release.mp hj).2 (slots_release.mp hk).2
  handed_out r hr := lt_of_lt_of_le (h.handed_out r hr) hnext

end TableSound

theorem serveOn_spec [Libc] (st : ServeState W) {sess : Nat} (h : sess ∈ st.sessions.handles)
    (req : HttpRequest) (msg : Message) (newId : Option Bytes) :
    ∃ st' reply, serveOn st sess req msg newId = some (st', reply) ∧ st'.table = st.table ∧
      st'.sessions.next = st.sessions.next ∧
      ∀ r, r ∈ st'.sessions.handles ↔
        (isStateless msg = true → r ≠ sess) ∧ r ∈ st.sessions.handles := by
  obtain ⟨s, hs⟩ := isSome_iff_exists.mp (Pool.isSome_get?.mpr h)
  unfold serveOn
  simp only [hs]
  refine ⟨_, _, rfl, rfl, ?_, fun r => ?_⟩
  · dsimp only
    split <;> simp
  dsimp only
  split
  next hless => simp [Pool.mem_handles_free, hless]
  next hless => simp [hless]

/-- A stateless message names no session of the table, and an `initialize` request that takes a slot
does not get an id that is in use. -/
def CarefulMessage (t : SessionTable) (msg : Message) : Option Bytes → Prop
  | some sid => isStateless msg = true → ∀ i slot, t.slots i = some slot → slot.id ≠ sid
  | none =>
    isStateless msg = false → isInit msg = true → (∃ i, t.slots i = none) →
      ∀ i slot, t.slots i = some slot → slot.id ≠ sessionId t.nextId

/-- The message of a POST, if it is not refused before, is careful. -/
def Careful [Libc] (auth : Option (Bytes → Bool)) (t : SessionTable) (req : HttpRequest) : Prop :=
  req.method = .post → ∀ msg, postMessage auth req = .ok msg →
    CarefulMessage t msg (mcpHttpHeader req "Mcp-Session-Id")

/-- A request had a defined outcome and left a sound table. -/
def SoundAfter (foreign : List Nat) (o : Option (ServeState W)) : Prop :=
  ∃ st, o = some st ∧ TableSound foreign st.sessions st.table

section OneRequest

variable {foreign : List Nat} {st : ServeState W}
  (h : TableSound foreign st.sessions st.table)

include h

theorem tableSound_handleDelete (req : HttpRequest) :
    TableSound foreign (handleDelete st req).1.sessions (handleDelete st req).1.table := by
  unfold handleDelete
  split
  · exact h
  next i slot hfind =>
    obtain ⟨sid, -, hfind⟩ := bind_eq_some_iff.mp hfind
    exact h.release (tableFind_eq_some hfind).1 (fun r => Pool.mem_handles_free) (by simp)

variable [Libc] (req : HttpRequest) (msg : Message)

theorem soundAfter_temporary (hless : isStateless msg = true) :
    SoundAfter foreign ((serveOn { st with sessions := st.sessions.alloc sessionNew }
      st.sessions.next req msg none).map fst) := by
  obtain ⟨st', reply, heq, htable, hnext, hhandles⟩ := serveOn_spec
    { st with sessions := st.sessions.alloc sessionNew } (st.sessions.next_mem_alloc sessionNew)
    req msg none
  refine ⟨st', by rw [heq]; rfl, ?_⟩
  rw [htable]
  refine h.of_handles (fun r => ?_) (by rw [hnext]; simp)
  have hfresh := st.sessions.next_notMem
  simp only [hhandles, hless, Pool.handles_alloc, mem_append, mem_singleton]
  constructor
  · rintro ⟨hne, hr | rfl⟩
    · exact hr
    · exact absurd rfl (hne trivial)
  · intro hr
    exact ⟨fun _ heq => hfresh (heq ▸ hr), .inl hr⟩

theorem soundAfter_fresh (hi : st.table.slots i = none) (hless : isStateless msg = false)
    (newId : Option Bytes) :
    SoundAfter foreign ((serveOn
        { st with sessions := st.sessions.alloc sessionNew
                  table := st.table.take i st.sessions.next }
        st.sessions.next req msg newId).map fst) ↔
      ∀ j slot, st.table.slots j = some slot → slot.id ≠ sessionId st.table.nextId := by
  obtain ⟨st', reply, heq, htable, hnext, hhandles⟩ := serveOn_spec
    { st with sessions := st.sessions.alloc sessionNew, table := st.table.take i st.sessions.next }
    (st.sessions.next_mem_alloc sessionNew) req msg newId
  rw [heq]
  constructor
  · rintro ⟨_, heq', hsound⟩ j slot hj hid
    obtain rfl := Option.some.inj heq'
    rw [htable] at hsound
    have hne : j ≠ i := by
      rintro rfl
      simp [hi] at hj
    exact hne (hsound.id_inj j i slot _ (slots_take.mpr (.inr ⟨hne, hj⟩))
      (slots_take.mpr (.inl ⟨rfl, rfl⟩)) hid)
  · intro hid
    refine ⟨st', rfl, ?_⟩
    rw [htable]
    refine h.take hi hid (fun r => ?_) (by rw [hnext]; simp)
    simp [hhandles, hless]

theorem soundAfter_held (hi : st.table.slots i = some slot) :
    SoundAfter foreign ((serveOn st slot.sess req msg none).map fst) ↔
      isStateless msg = false := by
  obtain ⟨st', reply, heq, htable, hnext, hhandles⟩ :=
    serveOn_spec st (h.registered hi) req msg none
  rw [heq]
  constructor
  · rintro ⟨_, heq', hsound⟩
    obtain rfl := Option.some.inj heq'
    rw [htable] at hsound
    have hmem := (hhandles slot.sess).mp (hsound.registered hi)
    cases hless : isStateless msg with
    | false => rfl
    | true => exact absurd rfl (hmem.1 hless)
  · intro hless
    refine ⟨st', rfl, ?_⟩
    rw [htable]
    exact h.of_handles (fun r => by simp [hhandles, hless]) (by rw [hnext])

theorem soundAfter_message (auth : Option (Bytes → Bool)) (hpost : postMessage auth req = .ok msg) :
    SoundAfter foreign ((handlePost auth st req).map fst) ↔
      CarefulMessage st.table msg (mcpHttpHeader req "Mcp-Session-Id") := by
  have hkeep : SoundAfter foreign (some st) := ⟨st, rfl, h⟩
  unfold handlePost chooseSession
  simp only [hpost]
  cases hsid : mcpHttpHeader req "Mcp-Session-Id" with
  | none =>
    cases hless : isStateless msg with
    | true => simpa [CarefulMessage, hless] using soundAfter_temporary h req msg hless
    | false =>
      cases hinit : isInit msg with
      | false => simpa [CarefulMessage, hless, hinit] using hkeep
      | true =>
        cases hslot : unusedSlot st.table with
        | none =>
          have hfull := unusedSlot_eq_none hslot
          simpa [CarefulMessage, hless, hinit, hfull] using hkeep
        | some i =>
          have hi := unusedSlot_eq_some hslot
          have hroom : ∃ i, st.table.slots i = none := ⟨i, hi⟩
          simpa [CarefulMessage, hless, hinit, hroom] using
            soundAfter_fresh h req msg hi hless _
  | some sid =>
    cases hfind : tableFind st.table sid with
    | none =>
      have hnone : CarefulMessage st.table msg (some sid) :=
        fun _ i slot hi => tableFind_eq_none hfind hi
      simpa [hnone, hfind] using hkeep
    | some found =>
      obtain ⟨i, slot⟩ := found
      obtain ⟨hi, hid⟩ := tableFind_eq_some hfind
      have hcareful : CarefulMessage st.table msg (some sid) ↔ isStateless msg = false := by
        refine ⟨fun hc => Bool.eq_false_iff.mpr fun hless => hc hless i slot hi hid, ?_⟩
        intro hless hless'
        simp [hless] at hless'
      simpa [hfind, hcareful] using soundAfter_held h req msg hi

end OneRequest

theorem soundAfter_serveTurn [Libc] (auth : Option (Bytes → Bool)) {foreign : List Nat}
    {st : ServeState W} (h : TableSound foreign st.sessions st.table) (req : HttpRequest) :
    SoundAfter foreign (serveTurn auth (some st) req).1 ↔ Careful auth st.table req := by
  have hkeep : SoundAfter foreign (some st) := ⟨st, rfl, h⟩
  have hturn : (serveTurn auth (some st) req).1 = (handleRequest auth st req).map fst := by
    simp only [serveTurn]
    cases handleRequest auth st req <;> rfl
  rw [hturn]
  unfold handleRequest Careful
  cases hmethod : req.method with
  | get | unknown => simpa using hkeep
  | delete =>
    have hdelete : SoundAfter foreign (some (handleDelete st req).1) :=
      ⟨_, rfl, tableSound_handleDelete h req⟩
    simpa using hdelete
  | post =>
    cases hpost : postMessage auth req with
    | error response => simpa [handlePost, hpost] using hkeep
    | ok msg => simpa [hpost] using soundAfter_message h req msg auth hpost

/-- A turn of a run, before which the state is defined, is careful. -/
def CarefulTurn [Libc] (auth : Option (Bytes → Bool)) (o : Option (ServeState W))
    (req : HttpRequest) : Prop :=
  ∀ st, o = some st → Careful auth st.table req

/-- Along every run from the empty table, the table is sound after each request exactly when
every request is careful in the state it meets. -/
theorem tableSound_iff_careful [Libc] (auth : Option (Bytes → Bool)) (srv : Server W)
    (sessions : Pool Session) (reqs : List HttpRequest) :
    (∀ before after, reqs = before ++ after →
      ∃ st, exec (serveTurn auth) (some ⟨srv, sessions, .initial⟩) before = some st ∧
        TableSound sessions.handles st.sessions st.table) ↔
      Admissible (serveTurn auth) (CarefulTurn auth) (some ⟨srv, sessions, .initial⟩)
        reqs := by
  refine forall_exec_iff_admissible (I := SoundAfter sessions.handles) ?_
    ⟨_, rfl, TableSound.initial sessions⟩
  rintro _ req ⟨st, rfl, h⟩
  rw [soundAfter_serveTurn auth h req]
  exact ⟨fun hc _ heq => Option.some.inj heq ▸ hc, fun hc => hc st rfl⟩

def initializeBody : Bytes :=
  text "\x7b\"jsonrpc\":\"2.0\",\"id\":\"1\",\"method\":\"initialize\"," ++
    text "\"params\":\x7b\"protocolVersion\":\"2025-06-18\",\"capabilities\":\x7b\x7d," ++
    text "\"clientInfo\":\x7b\"name\":\"c\",\"version\":\"1\"\x7d\x7d\x7d"

def metaPingBody : Bytes :=
  text "\x7b\"jsonrpc\":\"2.0\",\"id\":\"2\",\"method\":\"ping\",\"_meta\":\x7b\x7d\x7d"

def initializeBytes : Bytes :=
  text "POST / HTTP/1.1\r\nContent-Length: 148\r\n\r\n" ++ initializeBody

def metaPingBytes : Bytes :=
  text "POST / HTTP/1.1\r\nMcp-Session-Id: sess-1\r\nContent-Length: 53\r\n\r\n" ++ metaPingBody

def initializePost : HttpRequest :=
  ⟨.post, "/", [⟨"Content-Length", "148"⟩], initializeBody⟩

def metaPingPost : HttpRequest :=
  ⟨.post, "/", [⟨"Mcp-Session-Id", "sess-1"⟩, ⟨"Content-Length", "53"⟩], metaPingBody⟩

/-- The run over both requests, on a server without other sessions. -/
def metaPingRun : Option (ServeState Unit) :=
  exec (@serveTurn _ unitLibc none) (some ⟨bareServer, .empty, .initial⟩)
    [initializePost, metaPingPost]

theorem metaPingRun_eq :
    metaPingRun.map (fun st => (st.sessions.handles, st.table.slots ⟨0, by decide⟩)) =
      some ([], some ⟨"sess-1", 0⟩) := by
  decide +kernel

/-- A stateless message that names a session leaves a used slot without a session. -/
theorem slot_without_session :
    mcpHttpParseRequest initializeBytes = some initializePost ∧
      mcpHttpParseRequest metaPingBytes = some metaPingPost ∧
      ∃ st i slot, metaPingRun = some st ∧ st.table.slots i = some slot ∧
        slot.sess ∉ st.sessions.handles := by
  refine ⟨by decide +kernel, by decide +kernel, ?_⟩
  obtain ⟨st, hrun, hst⟩ := map_eq_some_iff.mp metaPingRun_eq
  obtain ⟨hhandles, hslot⟩ := mk.inj hst
  exact ⟨st, _, _, hrun, hslot, by simp [hhandles]⟩

end Mcpkit.Transport
