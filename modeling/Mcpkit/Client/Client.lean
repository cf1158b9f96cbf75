import Mcpkit.Server.Dispatcher

/-!
# The client

A client sends one request at a time over its transport and waits for the line
that answers it.  The ids of its requests are the doubles `1, 2, 3, …`; from
`2 ^ 53` on adding one rounds back, and the counter stands still.

The transport belongs to the host.  It is given by what its two operations do to
a state of its own.
-/

namespace Mcpkit

open Json JsonValue Protocol Binary64

variable {W T : Type}

/-- `mcp_client_t`, by its counter of request ids. -/
structure Client where
  nextId : Nat
  exact : nextId ≤ 9007199254740992

namespace Client

def create : Client := ⟨1, by decide⟩

def id (c : Client) : Binary64 := ofNat c.nextId

def advance (c : Client) : Client :=
  if h : c.nextId < 9007199254740992 then ⟨c.nextId + 1, h⟩ else c

theorem nextId_advance {c : Client} (h : c.nextId < 9007199254740992) :
    c.advance.nextId = c.nextId + 1 := by
  rw [advance, dif_pos h]

theorem isFinite_id (c : Client) : c.id.isFinite = true :=
  isFinite_ofNat (lt_of_le_of_lt c.exact (by decide))

example : ofNat 9007199254740993 = ofNat 9007199254740992 := by decide +kernel

end Client

structure TransportOps (T : Type) where
  send : T → Bytes → T × Status
  recv : T → T × Except Status Bytes

section

variable [Libc]

/-- The line received in answer to the request with an id. -/
def readResponse (id : Binary64) (line : Bytes) : Except Status Message :=
  match mcpMessageParse (cString line) with
  | none => .error .protocol
  | some resp =>
    if mcpMessageKind resp ≠ .response then .error .protocol
    else
      match mcpMessageIdNumber resp with
      | none => .error .protocol
      | some got => if got.val.eq id then .ok resp else .error .protocol

def roundtrip (t : TransportOps T) (st : Client × T) (method : Bytes) (params : Option JsonValue) :
    (Client × T) × Except Status Message :=
  let (c, tr) := st
  match mcpRequestNewNumberId c.id method params with
  | none => ((c.advance, tr), .error .noMem)
  | some req =>
    match t.send tr (cString (mcpMessageSerialize req)) with
    | (tr, .ok) =>
      match t.recv tr with
      | (tr, .ok line) => ((c.advance, tr), readResponse c.id line)
      | (tr, .error status) => ((c.advance, tr), .error status)
    | (tr, status) => ((c.advance, tr), .error status)

/-- `mcp_client_request`; the result is stored only if the caller asks for it. -/
def mcpClientRequest (t : TransportOps T) (st : Client × T) (method : Bytes)
    (params : Option JsonValue) (resultOut : Bool) :
    (Client × T) × Status × Option JsonValue :=
  match roundtrip t st method params with
  | (st, .error status) => (st, status, none)
  | (st, .ok resp) =>
    match mcpMessageErrorCode resp with
    | some code => (st, mcpRpcCodeToStatus code, none)
    | none =>
      if resultOut then
        match mcpMessageResult resp with
        | none => (st, .noMem, none)
        | some result => (st, .ok, some result.clone)
      else (st, .ok, none)

/-- The items of a page; anything but an array counts as no items. -/
def pageItems (page : Option JsonValue) : List JsonValue :=
  match page.bind (·.objectGet "tools") with
  | some (.array items) => items
  | _ => []

def cursorParams (cursor : JString) : Option JsonValue := do
  (JsonValue.object []).setTake "cursor" (← newString cursor.bytes)

def listToolsLoop (t : TransportOps T) :
    Nat → Client × T → Option JsonValue → List JsonValue →
      Option ((Client × T) × Except Status (List JsonValue))
  | 0, _, _, _ => none
  | fuel + 1, st, params, acc =>
    match mcpClientRequest t st (JString.lit "tools/list").bytes params true with
    | (st, .ok, page) =>
      let acc := acc ++ (pageItems page).map clone
      match (page.bind (·.objectGet "nextCursor")).bind (·.stringValue) with
      | none => some (st, .ok acc)
      | some cursor =>
        match cursorParams cursor with
        | none => some (st, .error .noMem)
        | some params => listToolsLoop t fuel st (some params) acc
    | (st, status, _) => some (st, .error status)

def mcpClientListTools (t : TransportOps T) (fuel : Nat) (st : Client × T) :
    Option ((Client × T) × Except Status JsonValue) :=
  (listToolsLoop t fuel st none []).map fun r =>
    (r.1, r.2.bind fun acc =>
      match (JsonValue.object []).setTake "tools" (.array acc) with
      | none => .error .noMem
      | some result => .ok result)

end

end Mcpkit
