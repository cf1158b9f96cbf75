import Mcpkit.Server.Answers

/-!
# Completion providers

A `completion/complete` request goes to the first provider in the array whose prefix begins the
reference.  Registration appends, but removal moves the last provider into the gap, so the array is
not always in the order of registration.  The provider registered by the `n`th operation of a run
logs `n` when it is called, and then does what it likes.
-/

namespace Mcpkit

open Json Protocol List Machine Nat JString

variable {W : Type}

def mcpServerRegisterCompletionProvider (srv : Server W) (entry : CompletionEntry W) :
    Server W × Status :=
  if srv.completions.any (·.refPrefix = entry.refPrefix) then (srv, .alreadyExists)
  else ({ srv with completions := srv.completions ++ [entry] }, .ok)

def mcpServerRemoveCompletionProvider (srv : Server W) (refPrefix : CString) : Server W × Status :=
  match srv.completions.findIdx? (·.refPrefix = refPrefix) with
  | none => (srv, .notFound)
  | some i => ({ srv with completions := srv.completions.swapRemove i }, .ok)

theorem mcpServerRegisterCompletionProvider_of_mem {srv : Server W} {entry e : CompletionEntry W}
    (he : e ∈ srv.completions) (heq : e.refPrefix = entry.refPrefix) :
    mcpServerRegisterCompletionProvider srv entry = (srv, .alreadyExists) :=
  if_pos (any_eq_true.mpr ⟨e, he, decide_eq_true heq⟩)

theorem mcpServerRegisterCompletionProvider_of_fresh {srv : Server W} {entry : CompletionEntry W}
    (h : ∀ e ∈ srv.completions, e.refPrefix ≠ entry.refPrefix) :
    mcpServerRegisterCompletionProvider srv entry =
      ({ srv with completions := srv.completions ++ [entry] }, .ok) := by
  refine if_neg fun hany => ?_
  obtain ⟨e, he, heq⟩ := any_eq_true.mp hany
  exact h e he (of_decide_eq_true heq)

namespace Completions

/-- A provider and the number of the operation that registered it. -/
structure Provider (W : Type) where
  stamp : Nat
  refPrefix : CString
  fn : W → Session → JsonValue → Effect W × Option JsonValue

def Provider.entry (p : Provider W) : CompletionEntry (W × List Nat) where
  refPrefix := p.refPrefix
  fn := fun w s args =>
    let r := p.fn w.1 s args
    (⟨(r.1.world, w.2 ++ [p.stamp]), r.1.appsHost, r.1.granted⟩, r.2)

/-- The prefix of the provider begins the reference. -/
def Provider.matches (ref : JString) (p : Provider W) : Bool :=
  p.refPrefix.bytes.isPrefixOf ref.bytes

inductive ProviderOp (W : Type) where
  | register (refPrefix : CString) (fn : W → Session → JsonValue → Effect W × Option JsonValue)
  | remove (refPrefix : CString)

/-- The server, the providers still registered in the order of registration, and the number of
the next operation. -/
structure Registry (W : Type) where
  server : Server (W × List Nat)
  live : List (Provider W)
  next : Nat

/-- An operation; the list of providers follows the status it returns. -/
def providerStep (st : Registry W) : ProviderOp W → Registry W × Status
  | .register refPrefix fn =>
    let p : Provider W := ⟨st.next, refPrefix, fn⟩
    let r := mcpServerRegisterCompletionProvider st.server p.entry
    (⟨r.1, if r.2 = .ok then st.live ++ [p] else st.live, st.next + 1⟩, r.2)
  | .remove refPrefix =>
    let r := mcpServerRemoveCompletionProvider st.server refPrefix
    (⟨r.1, if r.2 = .ok then st.live.filter (·.refPrefix ≠ refPrefix) else st.live,
      st.next + 1⟩, r.2)

/-- The tracer does not write to the log of the providers. -/
def Quiet (srv : Server (W × List Nat)) : Prop :=
  ∀ f, srv.tracer = some f → ∀ w ev, (f w ev).2 = w.2

def completionRef (req : Message) : Option JString :=
  (((mcpMessageParams req).bind (·.objectGet "ref")).filter (·.typeOf = .object)).bind
    fun refObj => getString (some refObj) "value"

/-- A request with a valid reference makes the server call the provider that was registered first
among those that match, and no other. -/
def CallsEarliest (st : Registry W) : Prop :=
  ∀ s req ref, Reaches s req "completion/complete" → completionRef req = some ref →
    (mcpServerDispatch st.server s req).1.world.2 =
      st.server.world.2 ++ ((st.live.find? (·.matches ref)).map (·.stamp)).toList

variable {srv : Server (W × List Nat)} {req : Message} {ref : JString} {arr : List (Provider W)}
  {st : Registry W}

theorem Quiet.log_trace (h : Quiet srv) (ev : TraceEvent) :
    (srv.trace ev).world.2 = srv.world.2 := by
  rw [Server.trace]
  split
  · rfl
  next f hf => exact h f hf _ _

theorem tracer_trace (srv : Server W) (ev : TraceEvent) : (srv.trace ev).tracer = srv.tracer := by
  rw [Server.trace]
  split <;> rfl

theorem completions_trace (srv : Server W) (ev : TraceEvent) :
    (srv.trace ev).completions = srv.completions := by
  rw [Server.trace]
  split <;> rfl

def completionArgs (req : Message) : JsonValue :=
  (((mcpMessageParams req).bind (·.objectGet "argument")).map JsonValue.clone).getD .null

theorem routeCompletionComplete_server (srv : Server W) (s : Session)
    (href : completionRef req = some ref) :
    (routeCompletionComplete srv s req).1 =
      (srv.completions.find? (·.refPrefix.bytes.isPrefixOf ref.bytes)).elim srv
        fun entry => srv.apply (entry.fn srv.world s (completionArgs req)).1 := by
  obtain ⟨refObj, hobj, hvalue⟩ := Option.bind_eq_some_iff.mp href
  rw [routeCompletionComplete]
  simp only [hobj, hvalue]
  cases srv.completions.find? (·.refPrefix.bytes.isPrefixOf ref.bytes) <;> rfl

theorem log_routeCompletionComplete (hstored : srv.completions = arr.map Provider.entry)
    (s : Session) (href : completionRef req = some ref) :
    (routeCompletionComplete srv s req).1.world.2 =
      srv.world.2 ++ ((arr.find? (·.matches ref)).map (·.stamp)).toList := by
  have hfind : srv.completions.find? (·.refPrefix.bytes.isPrefixOf ref.bytes) =
      (arr.find? (·.matches ref)).map Provider.entry := by
    rw [hstored, find?_map]
    rfl
  rw [routeCompletionComplete_server srv s href, hfind]
  cases arr.find? (·.matches ref) with
  | none => exact (append_nil _).symm
  | some p => rfl

theorem tracer_routeCompletionComplete (srv : Server W) (s : Session)
    (href : completionRef req = some ref) :
    (routeCompletionComplete srv s req).1.tracer = srv.tracer := by
  rw [routeCompletionComplete_server srv s href]
  cases srv.completions.find? (·.refPrefix.bytes.isPrefixOf ref.bytes) <;> rfl

theorem log_dispatchRoute {s : Session} {method : JString}
    (hquiet : Quiet (mcpServerRouteRequest (srv.trace (.begin method)) s req method).1) :
    (dispatchRoute srv s req method).1.world.2 =
      (mcpServerRouteRequest (srv.trace (.begin method)) s req method).1.world.2 := by
  rw [dispatchRoute]
  split
  next srv' s' heq =>
    rw [heq] at hquiet ⊢
    have herror : Quiet srv'.countError := hquiet
    exact herror.log_trace _
  next srv' s' resp heq =>
    rw [heq] at hquiet ⊢
    dsimp only
    split
    · have herror : Quiet srv'.countError := hquiet
      exact herror.log_trace _
    · exact hquiet.log_trace _

theorem log_mcpServerDispatch (hquiet : Quiet srv)
    (hstored : srv.completions = arr.map Provider.entry) {s : Session}
    (hreaches : Reaches s req "completion/complete") (href : completionRef req = some ref) :
    (mcpServerDispatch srv s req).1.world.2 =
      srv.world.2 ++ ((arr.find? (·.matches ref)).map (·.stamp)).toList := by
  obtain ⟨hkind, s', hgate⟩ := hreaches
  obtain ⟨level, hlevel⟩ := adoptLogLevel_eq srv.countRequest req
  rw [mcpServerDispatch_of_route srv hkind hgate, hlevel]
  -- the server with its request counted and its log floor set
  generalize hcounted : ({ srv.countRequest with logFloor := level } : Server _) = counted
  have hquiet' : Quiet counted := hcounted ▸ hquiet
  have hstored' : (counted.trace (.begin "completion/complete")).completions =
      arr.map Provider.entry := by
    rwa [completions_trace, ← hcounted]
  have hworld : counted.world = srv.world := by rw [← hcounted]; rfl
  have hroute : mcpServerRouteRequest (counted.trace (.begin "completion/complete")) s' req
      "completion/complete" =
        routeCompletionComplete (counted.trace (.begin "completion/complete")) s' req := rfl
  rw [log_dispatchRoute, hroute, log_routeCompletionComplete hstored' s' href,
    hquiet'.log_trace, hworld]
  rwa [hroute, Quiet, tracer_routeCompletionComplete _ _ href, tracer_trace]

/-- One of the two prefixes begins the other, so that a reference can match both. -/
def Comparable (p q : CString) : Prop := p.bytes <+: q.bytes ∨ q.bytes <+: p.bytes

theorem comparable_of_matches {p q : Provider W} (hp : p.matches ref = true)
    (hq : q.matches ref = true) : Comparable p.refPrefix q.refPrefix :=
  prefix_or_prefix_of_prefix ( isPrefixOf_iff_prefix.mp hp)
    ( isPrefixOf_iff_prefix.mp hq)

/-- The array `arr` of providers of a server: those still registered, in an order that agrees with
that of registration wherever it can be seen. -/
structure Ordered (st : Registry W) (arr : List (Provider W)) : Prop where
  quiet : Quiet st.server
  stored : st.server.completions = arr.map Provider.entry
  perm : arr.Perm st.live
  distinct : arr.Pairwise fun p q => p.refPrefix ≠ q.refPrefix
  sorted : st.live.Pairwise fun p q => p.stamp < q.stamp
  below : ∀ p ∈ st.live, p.stamp < st.next
  order : arr.Pairwise fun p q => Comparable p.refPrefix q.refPrefix → p.stamp < q.stamp

theorem Ordered.callsEarliest (h : Ordered st arr) : CallsEarliest st := by
  intro s req ref hreaches href
  rw [log_mcpServerDispatch h.quiet h.stored hreaches href]
  have hfind : arr.find? (·.matches ref) = st.live.find? (·.matches ref) := by
    refine h.perm.find?_eq (R := fun p q => p.stamp < q.stamp) (fun p q => lt_asymm) ?_ ?_
    · exact h.order.imp fun hpq hp hq => hpq (comparable_of_matches hp hq)
    · exact h.sorted.imp fun hpq _ _ => hpq
  rw [hfind]

/-- A removal is harmless if the provider that moves into the gap passes none whose prefix is
comparable with its own. -/
def Harmless (st : Registry W) : ProviderOp W → Prop
  | .register _ _ => True
  | .remove refPrefix =>
    ∀ before removed between last,
      st.server.completions = before ++ removed :: (between ++ [last]) →
      removed.refPrefix = refPrefix →
      ∀ passed ∈ between, ¬Comparable passed.refPrefix last.refPrefix

theorem Ordered.tick (h : Ordered st arr) : Ordered ⟨st.server, st.live, st.next + 1⟩ arr :=
  ⟨h.quiet, h.stored, h.perm, h.distinct, h.sorted, fun p hp => lt_succ_of_lt (h.below p hp),
    h.order⟩

theorem Ordered.append (h : Ordered st arr) {new : Provider W} (hstamp : new.stamp = st.next)
    (hfresh : ∀ p ∈ arr, p.refPrefix ≠ new.refPrefix) :
    Ordered ⟨{ st.server with completions := st.server.completions ++ [new.entry] },
      st.live ++ [new], st.next + 1⟩ (arr ++ [new]) := by
  have hconcat : ∀ {R : Provider W → Provider W → Prop} {l : List (Provider W)},
      l.Pairwise R → (∀ p ∈ l, R p new) → (l ++ [new]).Pairwise R := by
    intro R l hl hnew
    refine pairwise_append.mpr ⟨hl, pairwise_singleton _ _, fun p hp q hq => ?_⟩
    rw [mem_singleton.mp hq]
    exact hnew p hp
  have hbelow : ∀ p ∈ st.live, p.stamp < new.stamp := fun p hp => hstamp ▸ h.below p hp
  constructor
  case quiet => exact h.quiet
  case stored => simp [h.stored]
  case perm => exact h.perm.append_right _
  case distinct => exact hconcat h.distinct hfresh
  case sorted => exact hconcat h.sorted hbelow
  case below =>
    intro p hp
    obtain hp | hp := mem_append.mp hp
    · exact lt_succ_of_lt (h.below p hp)
    · rw [mem_singleton.mp hp, hstamp]
      exact lt_succ_self _
  case order => exact hconcat h.order fun p hp _ => hbelow p (h.perm.mem_iff.mp hp)

theorem Ordered.register (h : Ordered st arr) (refPrefix : CString)
    (fn : W → Session → JsonValue → Effect W × Option JsonValue) :
    ∃ arr', Ordered (providerStep st (.register refPrefix fn)).1 arr' := by
  rw [providerStep]
  by_cases hany : ∃ p ∈ arr, p.refPrefix = refPrefix
  · obtain ⟨p, hp, heq⟩ := hany
    have hmem : p.entry ∈ st.server.completions := h.stored ▸ mem_map_of_mem hp
    have hsame : p.entry.refPrefix = (Provider.entry ⟨st.next, refPrefix, fn⟩).refPrefix := heq
    rw [mcpServerRegisterCompletionProvider_of_mem hmem hsame]
    exact ⟨arr, h.tick⟩
  have hfresh : ∀ p ∈ arr, p.refPrefix ≠ refPrefix := fun p hp heq => hany ⟨p, hp, heq⟩
  rw [mcpServerRegisterCompletionProvider_of_fresh]
  · exact ⟨_, h.append rfl hfresh⟩
  · rw [h.stored]
    exact forall_mem_map.mpr hfresh

theorem perm_filter_of_distinct {live a b : List (Provider W)} {x : Provider W}
    (hperm : (a ++ x :: b).Perm live)
    (hdistinct : (a ++ x :: b).Pairwise fun p q => p.refPrefix ≠ q.refPrefix) :
    (a ++ b).Perm (live.filter (·.refPrefix ≠ x.refPrefix)) := by
  obtain ⟨-, hb, hab⟩ := pairwise_append.mp hdistinct
  have hfilter : (a ++ x :: b).filter (·.refPrefix ≠ x.refPrefix) = a ++ b := by
    rw [filter_append, filter_cons_of_neg (by simp), filter_eq_self.mpr, filter_eq_self.mpr]
    · intro p hp
      simpa using ((pairwise_cons.mp hb).1 p hp).symm
    · intro p hp
      simpa using hab p hp x mem_cons_self
  rw [← hfilter]
  exact hperm.filter _

theorem Ordered.take {a b rest : List (Provider W)} {x : Provider W} (h : Ordered st (a ++ x :: b))
    (hrest : rest.Perm (a ++ b))
    (horder : rest.Pairwise fun p q => Comparable p.refPrefix q.refPrefix → p.stamp < q.stamp) :
    Ordered ⟨{ st.server with completions := rest.map Provider.entry },
      st.live.filter (·.refPrefix ≠ x.refPrefix), st.next + 1⟩ rest := by
  constructor
  case quiet => exact h.quiet
  case stored => rfl
  case perm => exact hrest.trans (perm_filter_of_distinct h.perm h.distinct)
  case distinct =>
    refine (hrest.pairwise_iff fun h => Ne.symm h).mpr (h.distinct.sublist ?_)
    exact (List.Sublist.refl a).append (sublist_cons_self x b)
  case sorted => exact h.sorted.filter _
  case below => exact fun p hp => lt_succ_of_lt (h.below p (mem_filter.mp hp).1)
  case order => exact horder

theorem Ordered.remove (h : Ordered st arr) {refPrefix : CString}
    (hharmless : Harmless st (.remove refPrefix)) :
    ∃ arr', Ordered (providerStep st (.remove refPrefix)).1 arr' := by
  rw [providerStep, mcpServerRemoveCompletionProvider]
  split
  · exact ⟨arr, h.tick⟩
  next i hi =>
    rw [h.stored, findIdx?_map] at hi
    obtain ⟨a, x, hx, hcases⟩ := swapRemove_findIdx? hi
    obtain rfl : x.refPrefix = refPrefix := of_decide_eq_true hx
    rw [h.stored, map_swapRemove]
    refine ⟨arr.swapRemove i, ?_⟩
    obtain ⟨rfl, hremove⟩ | ⟨m, y, rfl, hremove⟩ := hcases
    · rw [hremove]
      exact h.take (by simp) (pairwise_append.mp h.order).1
    rw [hremove]
    refine h.take (perm_middle.trans ?_) (h.order.swap_last fun z hz hcomparable => ?_)
    · rw [← append_assoc]
      exact (perm_append_singleton y _).symm
    · refine absurd hcomparable.symm ?_
      exact hharmless (a.map Provider.entry) x.entry (m.map Provider.entry) y.entry
        (by simp [h.stored]) rfl z.entry (mem_map_of_mem hz)

theorem exists_ordered_providerStep {op : ProviderOp W} (hop : Harmless st op)
    (h : ∃ arr, Ordered st arr) : ∃ arr, Ordered (providerStep st op).1 arr := by
  obtain ⟨arr, harr⟩ := h
  cases op with
  | register refPrefix fn => exact harr.register refPrefix fn
  | remove refPrefix => exact harr.remove hop

def Registry.initial (srv : Server (W × List Nat)) : Registry W :=
  ⟨{ srv with completions := [] }, [], 0⟩

theorem ordered_initial (hquiet : Quiet srv) : Ordered (Registry.initial srv) [] where
  quiet := hquiet
  stored := rfl
  perm := .nil
  distinct := .nil
  sorted := .nil
  below := fun _ hp => absurd hp not_mem_nil
  order := .nil

/-- In a run without a harmful removal every request goes to the provider that was registered
first among those that match. -/
theorem callsEarliest_of_harmless {srv : Server (W × List Nat)} (hquiet : Quiet srv)
    {ops : List (ProviderOp W)}
    (hops : Admissible providerStep Harmless (.initial srv) ops) :
    CallsEarliest (exec providerStep (.initial srv) ops) := by
  obtain ⟨arr, harr⟩ := exec_invariant_of_admissible
    (I := fun st => ∃ arr, Ordered st arr) (fun st op hop h => exists_ordered_providerStep hop h)
    ⟨[], ordered_initial hquiet⟩ hops
  exact harr.callsEarliest

def registerEmpty (refPrefix : String) : ProviderOp Unit :=
  .register (lit refPrefix).toCString fun _ s _ => (⟨(), s.appsHost, s.granted⟩, some (.array []))

def removePrefix (refPrefix : String) : ProviderOp Unit := .remove (lit refPrefix).toCString

def registryAfter (ops : List (ProviderOp Unit)) : Registry Unit :=
  exec providerStep
    (.initial
      (mcpServerCreate ((), []) "demo" "1.0"))
    ops

def completeRequest : Message :=
  ⟨[("jsonrpc", .string "2.0"), ("id", .string "1"), ("method", .string "completion/complete"),
    ("params", .object
      [("ref", .object [("value", .string "ref")]), ("argument", .object [])])]⟩

theorem completeRequest_reaches :
    Reaches openSession completeRequest "completion/complete" :=
  ⟨by decide, _, rfl⟩

/-- The providers for `r` and `re` are left, in this order; with the one for `x` gone, `ref` is
completed by the second. -/
theorem callsEarliest_fails_after_swap :
    (registryAfter [registerEmpty "x", registerEmpty "r", registerEmpty "re",
        removePrefix "x"]).live.map (·.stamp) = [1, 2] ∧
      (mcpServerDispatch (registryAfter [registerEmpty "x", registerEmpty "r", registerEmpty "re",
        removePrefix "x"]).server openSession completeRequest).1.world.2 = [2] ∧
      ¬CallsEarliest (registryAfter [registerEmpty "x", registerEmpty "r", registerEmpty "re",
        removePrefix "x"]) := by
  refine ⟨by decide +kernel, by decide +kernel, fun h => ?_⟩
  have hlog := h openSession completeRequest "ref" completeRequest_reaches (by decide)
  revert hlog
  decide +kernel

/-- With two providers a removal moves the last one past no other. -/
theorem callsEarliest_after_removeFirst :
    Admissible providerStep Harmless (registryAfter [])
        [registerEmpty "r", registerEmpty "re", removePrefix "r"] ∧
      CallsEarliest (registryAfter [registerEmpty "r", registerEmpty "re", removePrefix "r"]) := by
  have hops : Admissible providerStep Harmless (registryAfter [])
      [registerEmpty "r", registerEmpty "re", removePrefix "r"] := by
    refine ⟨trivial, trivial, ?_, trivial⟩
    intro before removed between last hsplit _ passed hpassed
    have hlength : 2 = (before ++ removed :: (between ++ [last])).length :=
      congrArg List.length hsplit
    simp only [length_append, length_cons, length_nil] at hlength
    have hpositive := length_pos_of_mem hpassed
    omega
  have hquiet : Quiet (mcpServerCreate ((), []) "demo"
      "1.0") := fun _ hf => absurd hf (by simp [mcpServerCreate])
  exact ⟨hops, callsEarliest_of_harmless hquiet hops⟩

end Completions

end Mcpkit
