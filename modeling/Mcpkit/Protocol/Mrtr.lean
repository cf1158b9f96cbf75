import Mcpkit.Protocol.Extensions

/-!
# Results that ask for input

A tool that needs more from the user answers with a result of the type
`input_required`.  It holds the requests to put to the user, a state for the
server to recognise the retry by, or both.
-/

namespace Mcpkit.Protocol

open Json JsonValue

def setStrOpt (obj : JsonValue) (key : String) (val : Option CString) : Option JsonValue :=
  match val with
  | none => some obj
  | some val => do obj.setTake key (← newString val.bytes)

def mcpMrtrResultInputRequiredNew (inputRequests : Option JsonValue)
    (requestState : Option CString) : Option JsonValue :=
  if inputRequests.isNone && requestState.isNone then none
  else do
    let obj ← (JsonValue.object []).setTake "resultType" (.string "input_required")
    let obj ← setOptional obj "inputRequests" inputRequests
    setStrOpt obj "requestState" requestState

def mcpMrtrGetRequestState (result : JsonValue) : Option JString :=
  (result.objectGet "requestState").bind (·.stringValue)

def mcpMrtrGetInputRequests (result : JsonValue) : Option JsonValue :=
  result.objectGet "inputRequests"

end Mcpkit.Protocol
