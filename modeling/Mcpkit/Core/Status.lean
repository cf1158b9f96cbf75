import Mathlib.Data.List.Basic

/-!
# Status codes

`mcp_status_t` and its printed names.  A callback of the embedding program may
return a value outside the enumeration, so the type has a case for that.
-/

namespace Mcpkit

inductive Status where
  | ok
  | invalidArgument
  | noMem
  | io
  | protocol
  | timeout
  | cancelled
  | notFound
  | alreadyExists
  | unsupported
  | permission
  | other (code : Int)
  deriving DecidableEq

def mcpStatusString : Status → String
  | .ok => "MCP_OK"
  | .invalidArgument => "MCP_ERR_INVALID_ARGUMENT"
  | .noMem => "MCP_ERR_NOMEM"
  | .io => "MCP_ERR_IO"
  | .protocol => "MCP_ERR_PROTOCOL"
  | .timeout => "MCP_ERR_TIMEOUT"
  | .cancelled => "MCP_ERR_CANCELLED"
  | .notFound => "MCP_ERR_NOT_FOUND"
  | .alreadyExists => "MCP_ERR_ALREADY_EXISTS"
  | .unsupported => "MCP_ERR_UNSUPPORTED"
  | .permission => "MCP_ERR_PERMISSION"
  | .other _ => "MCP_ERR_UNKNOWN"

end Mcpkit
