import Mcpkit.Client.Request
import Mcpkit.Protocol.Mrtr

/-!
# Calling a tool over several round trips

`mcp_client_call_tool_mrtr` calls a tool and, while the result asks for input,
lets the host collect it and calls the tool again.  A retry carries what the
host collected and the state that the result holds, and no arguments.
-/

namespace Mcpkit

open Json JsonValue Protocol List Option JString

variable {T E : Type}

def mcpMrtrMaxHops : Nat := 5

/-- `mcp_client_mrtr_elicit_fn`, with its user data as a state of its own: the responses to the
input requests and the state of a result, or nothing to cancel the call. -/
abbrev ElicitFn (E : Type) := E → Option JsonValue → Option JString → E × Option JsonValue

/-- What a hop attaches to its request besides the name of the tool. -/
structure Hop where
  args : Option JsonValue
  pendingResponses : Option JsonValue
  pendingState : Option JString

def hopParams (name : Bytes) (hop : Hop) : Option JsonValue := do
  let params ← (JsonValue.object []).setTake "name" (← newString name)
  let params ← setOptional params "arguments" hop.args
  let params ← setOptional params "inputResponses" hop.pendingResponses
  setStrOpt params "requestState" (hop.pendingState.map (·.toCString))

section

variable [Libc]

def callToolLoop (t : TransportOps T) (elicitFn : Option (ElicitFn E)) (name : Bytes) :
    Nat → (Client × T) × E → Hop → ((Client × T) × E) × Status × Option JsonValue
  | left, (st, e), hop =>
    match hopParams name hop with
    | none => ((st, e), .noMem, none)
    | some params =>
      match mcpClientRequest t st (lit "tools/call").bytes (some params) true with
      | (st, .ok, some result) =>
        match mcpMrtrIsInputRequired result, elicitFn, left with
        | true, some _, 0 => ((st, e), .protocol, none)
        | true, some elicit, left + 1 =>
          let state := mcpMrtrGetRequestState result
          match elicit e (mcpMrtrGetInputRequests result) state with
          | (e, none) => ((st, e), .cancelled, none)
          | (e, some responses) =>
            callToolLoop t elicitFn name left (st, e) ⟨none, some responses, state⟩
        | _, _, _ => ((st, e), .ok, some result)
      | (st, status, result) => ((st, e), status, result)

def mcpClientCallToolMrtr (t : TransportOps T) (elicitFn : Option (ElicitFn E))
    (st : (Client × T) × E) (name : Bytes) (args : Option JsonValue) :
    ((Client × T) × E) × Status × Option JsonValue :=
  callToolLoop t elicitFn name mcpMrtrMaxHops st ⟨args, none, none⟩

section

variable {t : TransportOps T} {elicit : ElicitFn E} {name : Bytes} {st st' : Client × T} {e e' : E}
  {hop : Hop} {params : JsonValue} (hparams : hopParams name hop = some params)

include hparams

theorem callToolLoop_failed {elicitFn : Option (ElicitFn E)} {status : Status}
    {value : Option JsonValue} (hrequest : mcpClientRequest t st (lit "tools/call").bytes
      (some params) true = (st', status, value)) (hstatus : status ≠ .ok) (left : Nat) :
    callToolLoop t elicitFn name left (st, e) hop = ((st', e), status, value) := by
  rw [callToolLoop, hparams]
  simp only [hrequest]
  split
  next h =>
    cases h
    exact absurd rfl hstatus
  next h =>
    cases h
    rfl

variable {value : JsonValue} (hrequest : mcpClientRequest t st (lit "tools/call").bytes
  (some params) true = (st', .ok, some value))

include hrequest

theorem callToolLoop_complete (hvalue : mcpMrtrIsInputRequired value = false)
    (elicitFn : Option (ElicitFn E)) (left : Nat) :
    callToolLoop t elicitFn name left (st, e) hop = ((st', e), .ok, some value) := by
  rw [callToolLoop, hparams]
  simp only [hrequest, hvalue]

variable (hvalue : mcpMrtrIsInputRequired value = true)

include hvalue

theorem callToolLoop_exhausted :
    callToolLoop t (some elicit) name 0 (st, e) hop = ((st', e), .protocol, none) := by
  rw [callToolLoop, hparams]
  simp only [hrequest, hvalue]

theorem callToolLoop_cancelled (hcancel : elicit e (mcpMrtrGetInputRequests value)
    (mcpMrtrGetRequestState value) = (e', none)) (left : Nat) :
    callToolLoop t (some elicit) name (left + 1) (st, e) hop = ((st', e'), .cancelled, none) := by
  rw [callToolLoop, hparams]
  simp only [hrequest, hvalue, hcancel]

theorem callToolLoop_retry {responses : JsonValue} (hanswer : elicit e
    (mcpMrtrGetInputRequests value) (mcpMrtrGetRequestState value) = (e', some responses))
    (left : Nat) :
    callToolLoop t (some elicit) name (left + 1) (st, e) hop =
      callToolLoop t (some elicit) name left (st', e')
        ⟨none, some responses, mcpMrtrGetRequestState value⟩ := by
  rw [callToolLoop, hparams]
  simp only [hrequest, hvalue, hanswer]

end

end

def hopObject (name : JString) (hop : Hop) : JsonValue :=
  .object ([(.lit "name", .string name)] ++
    (hop.args.map fun v => (lit "arguments", v)).toList ++
    (hop.pendingResponses.map fun v => (lit "inputResponses", v)).toList ++
    (hop.pendingState.map fun s => (lit "requestState", JsonValue.string s)).toList)

theorem hopParams_eq {name : Bytes} {nm : JString} (h : newString name = some (.string nm))
    (hop : Hop) : hopParams name hop = some (hopObject nm hop) := by
  obtain ⟨args, responses, state⟩ := hop
  simp only [hopParams, h, bind_eq_bind, bind_some, setTake_object]
  cases args <;> cases responses <;> cases state <;>
    simp only [setOptional, setStrOpt, map_some, map_none, setTake_object,
      bind_eq_bind, bind_some, toCString, newString_bytes] <;>
    rfl

theorem hopParams_eq_none {name : Bytes} (h : newString name = none) (hop : Hop) :
    hopParams name hop = none := by
  rw [hopParams, h]
  rfl

def toolCallRequest (c : Client) (params : JsonValue) : Message :=
  ((newEnvelope.set "id" (.number ⟨c.id, c.isFinite_id⟩)).set "method"
    (.string "tools/call")).set "params" params

theorem mcpRequestNewNumberId_call (c : Client) (params : JsonValue) :
    mcpRequestNewNumberId c.id (lit "tools/call").bytes (some params) =
      some (toolCallRequest c params) := by
  rw [mcpRequestNewNumberId, newNumber, dif_pos c.isFinite_id, newString_bytes]
  rfl

/-- A transport whose answers are given in advance: its state holds the texts it has been sent, and
the answer to the `i`-th of them is the `i`-th line. -/
def scripted (line : Nat → Bytes) : TransportOps (List Bytes) where
  send sent text := (sent ++ [text], .ok)
  recv sent := (sent, .ok (line (sent.length - 1)))

section

variable (elicit : ElicitFn E) (e : E) (result : Nat → JsonValue)

/-- The state of the host once it has been asked for the input of the first results. -/
def elicitState : Nat → E
  | 0 => e
  | i + 1 => (elicit (elicitState i) (mcpMrtrGetInputRequests (result i))
      (mcpMrtrGetRequestState (result i))).1

/-- What the host returns for the input requests of a result. -/
def elicitAnswer (i : Nat) : Option JsonValue :=
  (elicit (elicitState elicit e result i) (mcpMrtrGetInputRequests (result i))
    (mcpMrtrGetRequestState (result i))).2

/-- The first hop carries the arguments, and every other one what the result before it led to. -/
def hopAt (args : Option JsonValue) : Nat → Hop
  | 0 => ⟨args, none, none⟩
  | i + 1 => ⟨none, elicitAnswer elicit e result i, mcpMrtrGetRequestState (result i)⟩

end

section

variable [Libc]

def callText (c : Client) (name : JString) (hop : Hop) : Bytes :=
  cString (mcpMessageSerialize (toolCallRequest c (hopObject name hop)))

theorem exchange_scripted (line : Nat → Bytes) (c : Client) (sent : List Bytes) (name : JString)
    (hop : Hop) :
    Exchange (scripted line) (c, sent) (lit "tools/call").bytes (some (hopObject name hop))
      (line sent.length) (sent ++ [callText c name hop]) := by
  refine ⟨toolCallRequest c (hopObject name hop), sent ++ [callText c name hop],
    mcpRequestNewNumberId_call c _, rfl, ?_⟩
  simp [scripted]

theorem mcpClientRequest_scripted {line : Nat → Bytes} {c : Client} {sent : List Bytes}
    {value : JsonValue} (h : CarriesResult c.id (line sent.length) value) (name : JString)
    (hop : Hop) :
    mcpClientRequest (scripted line) (c, sent) (lit "tools/call").bytes
        (some (hopObject name hop)) true =
      ((c.advance, sent ++ [callText c name hop]), .ok, some value) := by
  obtain ⟨resp, hresp, hresult, herror⟩ := h
  have hexchange := exchange_scripted line c sent name hop
  refine Prod.ext (hexchange.request_state true) ?_
  exact hexchange.request_result hresp (mcpMessageErrorCode_of_none herror) hresult

section

variable (elicit : ElicitFn E) (e : E) (result : Nat → JsonValue) (c : Client) (name : JString)
  (args : Option JsonValue)

def callTexts (n : Nat) : List Bytes :=
  (List.range n).map fun i => callText (Client.advance^[i] c) name (hopAt elicit e result args i)

theorem length_callTexts (n : Nat) : (callTexts elicit e result c name args n).length = n := by
  rw [callTexts, length_map, length_range]

theorem callTexts_succ (n : Nat) :
    callTexts elicit e result c name args (n + 1) = callTexts elicit e result c name args n ++
      [callText (Client.advance^[n] c) name (hopAt elicit e result args n)] := by
  rw [callTexts, range_succ, map_append]
  rfl

end

theorem mcpClientRequest_callTexts (elicit : ElicitFn E) (e : E) {result : Nat → JsonValue}
    {c : Client} (name : JString) (args : Option JsonValue) {line : Nat → Bytes} {i : Nat}
    (h : CarriesResult (Client.advance^[i] c).id (line i) (result i)) :
    mcpClientRequest (scripted line)
        (Client.advance^[i] c, callTexts elicit e result c name args i)
        (lit "tools/call").bytes
        (some (hopObject name (hopAt elicit e result args i))) true =
      (((Client.advance^[i] c).advance, callTexts elicit e result c name args (i + 1)), .ok,
        some (result i)) := by
  rw [callTexts_succ]
  apply mcpClientRequest_scripted
  rwa [length_callTexts]

end

section

variable (elicit : ElicitFn E) (e : E) (result : Nat → JsonValue)

/-- A result makes the client go on: it asks for input, and the host gives it. -/
def GoesOn (i : Nat) : Prop :=
  mcpMrtrIsInputRequired (result i) = true ∧ (elicitAnswer elicit e result i).isSome = true

/-- How a call ends at a result: with that result, because the host cancels, or because there have
been too many. -/
inductive EndsAt (n : Nat) : Status → Option JsonValue → Prop
  | complete (h : mcpMrtrIsInputRequired (result n) = false) : EndsAt n .ok (some (result n))
  | cancelled (h : mcpMrtrIsInputRequired (result n) = true) (hn : n < mcpMrtrMaxHops)
      (hcancel : elicitAnswer elicit e result n = none) : EndsAt n .cancelled none
  | exhausted (h : mcpMrtrIsInputRequired (result n) = true) (hn : n = mcpMrtrMaxHops) :
      EndsAt n .protocol none

/-- The dialogue of a call: the requests that it sends, each but the last answered by a result that
makes it go on, and how it ends. -/
def Dialogue [Libc] (c : Client) (name : JString) (args : Option JsonValue)
    (out : ((Client × List Bytes) × E) × Status × Option JsonValue) : Prop :=
  ∃ n ≤ mcpMrtrMaxHops, out.1.1.2 = callTexts elicit e result c name args (n + 1) ∧
    (∀ i < n, GoesOn elicit e result i) ∧ EndsAt elicit e result n out.2.1 out.2.2

end

section

variable [Libc] {elicit : ElicitFn E} {e : E} {result : Nat → JsonValue} {c : Client}
  {name : Bytes} {nm : JString} {args : Option JsonValue} {line : Nat → Bytes}

theorem dialogue_callToolLoop (hname : newString name = some (.string nm))
    (hline : ∀ i ≤ mcpMrtrMaxHops, CarriesResult (Client.advance^[i] c).id (line i) (result i))
    (left : Nat) {i : Nat} (hi : i + left = mcpMrtrMaxHops)
    (hon : ∀ j < i, GoesOn elicit e result j) :
    Dialogue elicit e result c nm args
      (callToolLoop (scripted line) (some elicit) name left
        ((Client.advance^[i] c, callTexts elicit e result c nm args i),
          elicitState elicit e result i) (hopAt elicit e result args i)) := by
  have hrequest := mcpClientRequest_callTexts elicit e nm args (hline i (by omega))
  cases hreq : mcpMrtrIsInputRequired (result i) with
  | false =>
    rw [callToolLoop_complete (hopParams_eq hname _) hrequest hreq]
    exact ⟨i, by omega, rfl, hon, .complete hreq⟩
  | true =>
    cases left with
    | zero =>
      rw [callToolLoop_exhausted (hopParams_eq hname _) hrequest hreq]
      exact ⟨i, by omega, rfl, hon, .exhausted hreq (by omega)⟩
    | succ left =>
      cases hanswer : elicitAnswer elicit e result i with
      | none =>
        rw [callToolLoop_cancelled (hopParams_eq hname _) hrequest hreq (Prod.ext rfl hanswer)]
        exact ⟨i, by omega, rfl, hon, .cancelled hreq (by omega) hanswer⟩
      | some responses =>
        have hnext : ∀ j < i + 1, GoesOn elicit e result j := by
          intro j hj
          obtain hj | rfl := Nat.lt_succ_iff_lt_or_eq.mp hj
          · exact hon j hj
          · exact ⟨hreq, isSome_iff_exists.mpr ⟨_, hanswer⟩⟩
        have hgo := dialogue_callToolLoop hname hline left (by omega) hnext
        rw [hopAt, hanswer, Function.iterate_succ_apply'] at hgo
        rwa [callToolLoop_retry (hopParams_eq hname _) hrequest hreq (Prod.ext rfl hanswer)]

/-- A call sends nothing if its name is no text; else its requests and its end are those of the
dialogue with the server. -/
theorem mcpClientCallToolMrtr_dialogue (elicit : ElicitFn E) (e : E) (c : Client) (name : Bytes)
    (args : Option JsonValue) (line : Nat → Bytes) (result : Nat → JsonValue)
    (hline : ∀ i ≤ mcpMrtrMaxHops, CarriesResult (Client.advance^[i] c).id (line i) (result i)) :
    (newString name = none ∧
      mcpClientCallToolMrtr (scripted line) (some elicit) ((c, []), e) name args =
        (((c, []), e), .noMem, none)) ∨
    ∃ nm, newString name = some (.string nm) ∧ Dialogue elicit e result c nm args
      (mcpClientCallToolMrtr (scripted line) (some elicit) ((c, []), e) name args) := by
  cases hname : newString name with
  | none =>
    refine .inl ⟨rfl, ?_⟩
    rw [mcpClientCallToolMrtr, callToolLoop, hopParams_eq_none hname]
  | some v =>
    obtain ⟨nm, rfl⟩ : ∃ nm, v = .string nm := newString_eq_some hname
    refine .inr ⟨nm, rfl, ?_⟩
    apply dialogue_callToolLoop hname hline mcpMrtrMaxHops (Nat.zero_add _)
    intro j hj
    exact absurd hj (Nat.not_lt_zero j)

end

def askThenDone : Nat → JsonValue
  | 0 => .object [("resultType", .string "input_required"), ("requestState", .string "s")]
  | _ => .object []

def askThenDoneLine (i : Nat) : Bytes :=
  @mcpMessageSerialize countingLibc (resultResponse (Client.advance^[i] .create) (askThenDone i))

def answerAll : ElicitFn Unit := fun _ _ _ => ((), some (.array []))

theorem carriesResult_askThenDoneLine (i : Nat) (hi : i ≤ mcpMrtrMaxHops) :
    @CarriesResult countingLibc (Client.advance^[i] .create).id (askThenDoneLine i)
      (askThenDone i) := by
  have hkeys : (askThenDone i).DistinctKeys := by
    cases i with
    | zero =>
      exact (distinctKeys_empty.set "resultType" (v := .string _) trivial).set
        "requestState" (v := .string _) trivial
    | succ i => exact distinctKeys_empty
  have hlimits : ∀ i ≤ mcpMrtrMaxHops,
      (resultResponse (Client.advance^[i] .create) (askThenDone i)).dom.depth ≤ mcpJsonMaxDepth ∧
      (askThenDoneLine i).length ≤ mcpProtocolMaxMessageBytes := by
    decide +kernel
  exact @carriesResult_resultResponse countingLibc _ countingLibc_printsDoubles _ hkeys
    (@WithinLimits.mk countingLibc _ (hlimits i hi).1 (hlimits i hi).2)

theorem dialogue_askThenDone :
    @Dialogue Unit answerAll () askThenDone countingLibc .create "t" none
      (@mcpClientCallToolMrtr _ _ countingLibc (scripted askThenDoneLine) (some answerAll)
        ((.create, []), ()) (lit "t").bytes none) := by
  obtain ⟨hnone, -⟩ | ⟨nm, hname, hdialogue⟩ := @mcpClientCallToolMrtr_dialogue Unit countingLibc
    answerAll () .create (lit "t").bytes none askThenDoneLine askThenDone
    carriesResult_askThenDoneLine
  · rw [newString_bytes] at hnone
    cases hnone
  · rw [newString_bytes] at hname
    cases hname
    exact hdialogue

end Mcpkit
