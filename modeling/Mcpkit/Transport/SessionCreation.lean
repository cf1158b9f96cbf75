import Mcpkit.Lib.JsonWord
import Mcpkit.Transport.AsyncServer

/-!
# When a request creates a session

A POST without a session id has to be an `initialize` request.  The server does
not read the message to find out: it looks for the word `"initialize"` in the
bytes of the buffer from the body on.  It finds each string of the message that
is this word and is written without escapes, wherever in the message it stands,
and the same word behind the message.
-/

namespace Mcpkit.Transport.Async

open Json JsonValue JsonText Protocol Option List

section

variable [Libc]

def IsInitialize (body : Bytes) : Prop :=
  ∃ msg, mcpMessageParse body = some msg ∧ mcpMessageKind msg = .request ∧
    mcpMessageMethod msg = some (.lit "initialize")

end

/-- The request at the front of the buffer makes the server create a session. -/
def CreatesSession (st : State) : Prop :=
  st.processHttpRequest.1.shared.created = st.shared.created + 1

instance (st : State) : Decidable (CreatesSession st) := inferInstanceAs (Decidable (_ = _))

/-- The word stands in the bytes in front of a zero byte. -/
def NamesInitialize (bytes : Bytes) : Prop :=
  strstr (cString bytes) "\"initialize\"" = true

instance (bytes : Bytes) : Decidable (NamesInitialize bytes) := inferInstanceAs (Decidable (_ = _))

/-- The sessions that have been created once a branch is taken. -/
def Branch.created (shared : Shared) : Branch → Nat
  | .error _ _ => shared.created
  | .upgrade _ => shared.created + 1
  | .stream _ => shared.created
  | .dispatch shared' _ => shared'.created

theorem created_takeBranch (st : State) (totalNeeded : Nat) (req : HttpRequest) (b : Branch) :
    (st.takeBranch totalNeeded req b).1.shared.created = b.created st.shared := by
  cases b <;> rfl

theorem namesInitialize_iff (bytes : Bytes) :
    NamesInitialize bytes ↔ quoted "initialize" <:+: cString bytes := by
  rw [NamesInitialize, strstr, isSome_iff_ne_none, ne_eq,
    firstOccurrence_eq_none_iff_not_infix, not_not]
  rfl

variable {ms : List (List Elem × Tree)}

/-- The strings of a text that a member of its value can come from. -/
theorem mem_buildMembers [Libc] {depth : Nat} {acc members : MemberList}
    (h : buildMembers depth ms acc = some members) {p : JString × JsonValue} (hp : p ∈ members) :
    p ∈ acc ∨ ∃ m ∈ ms, build depth m.2 = some p.2 := by
  induction ms generalizing acc with
  | nil =>
    cases h
    exact .inl hp
  | cons m ms ih =>
    simp only [buildMembers, bind_eq_bind, bind_eq_some_iff] at h
    obtain ⟨cs, -, v, hv, h⟩ := h
    obtain hacc | ⟨m', hm', hbuild⟩ := ih h
    · obtain rfl | hacc := Assoc.mem_set hacc
      · exact .inr ⟨m, mem_cons_self, hv⟩
      · exact .inl hacc
    · exact .inr ⟨m', mem_cons_of_mem m hm', hbuild⟩

theorem mem_stringsMembers {k es : List Elem} (h : (k, Tree.string es) ∈ ms) :
    es ∈ stringsMembers ms := by
  induction ms with
  | nil => cases h
  | cons m ms ih =>
    obtain rfl | h := mem_cons.mp h
    · simp [stringsMembers, Tree.strings]
    · simp [stringsMembers, ih h]

/-- A string and an object come from a tree of their kind. -/
theorem build_shape [Libc] {depth : Nat} {t : Tree} {v : JsonValue} (h : build depth t = some v) :
    (∀ s, v = .string s →
        ∃ es cs, t = .string es ∧ denote es = some cs ∧ JString.ofChars cs = s) ∧
      ∀ members, v = .object members →
        ∃ ms, t = .object ms ∧ buildMembers (depth + 1) ms [] = some members := by
  cases t with
  | null | bool =>
    cases h
    constructor <;> rintro _ ⟨⟩
  | number literal =>
    simp only [build, newNumber] at h
    split_ifs at h
    cases h
    constructor <;> rintro _ ⟨⟩
  | string es =>
    obtain ⟨cs, hcs, rfl⟩ := map_eq_some_iff.mp h
    refine ⟨fun _ hs => ⟨es, cs, rfl, hcs, JsonValue.string.inj hs⟩, ?_⟩
    rintro _ ⟨⟩
  | array items =>
    rw [build] at h
    split at h
    · cases h
    · obtain ⟨_, -, rfl⟩ := map_eq_some_iff.mp h
      constructor <;> rintro _ ⟨⟩
  | object ms =>
    rw [build] at h
    split at h
    · cases h
    · obtain ⟨members, hms, rfl⟩ := map_eq_some_iff.mp h
      refine ⟨?_, fun _ hv => ⟨ms, rfl, JsonValue.object.inj hv ▸ hms⟩⟩
      rintro _ ⟨⟩

/-- The string means `initialize`. -/
def MeansInitialize (es : List Elem) : Prop :=
  ∃ cs, denote es = some cs ∧ JString.ofChars cs = "initialize"

section

variable [Libc] {body : Bytes} {members : MemberList} {t : Tree}

theorem build_text (hobject : builtinParse body = some (.object members)) (ht : Text body t) :
    ∃ ms, t = .object ms ∧ buildMembers 1 ms [] = some members := by
  obtain ⟨hvalid, -⟩ := builtinParse_sound hobject
  rw [builtinParse_text hvalid ht] at hobject
  exact (build_shape hobject).2 members rfl

theorem IsInitialize.exists_string (h : IsInitialize body)
    (hobject : builtinParse body = some (.object members)) (ht : Text body t) :
    ∃ es ∈ t.strings, MeansInitialize es := by
  obtain ⟨ms, rfl, hms⟩ := build_text hobject ht
  obtain ⟨msg, hmsg, -, hmethod⟩ := h
  obtain rfl : msg = ⟨members⟩ := by
    rw [mcpMessageParse, hobject] at hmsg
    split at hmsg
    · cases hmsg
    · exact (some.inj hmsg).symm
  obtain ⟨v, hv, hstring⟩ := bind_eq_some_iff.mp hmethod
  obtain hnil | ⟨⟨k, t⟩, hmem, hbuild⟩ := mem_buildMembers hms (Assoc.mem_of_lookup hv)
  · cases hnil
  · cases v with
    | string s =>
      cases hstring
      obtain ⟨es, cs, rfl, hcs, hs⟩ := (build_shape hbuild).1 _ rfl
      exact ⟨es, mem_stringsMembers hmem, cs, hcs, hs⟩
    | _ => cases hstring

theorem namesInitialize_append (hobject : builtinParse body = some (.object members))
    (ht : Text body t) (behind : Bytes) :
    NamesInitialize (body ++ behind) ↔
      (∃ es ∈ t.strings, Spells "initialize" es) ∨ NamesInitialize behind := by
  obtain ⟨ms, rfl, -⟩ := build_text hobject ht
  have hall : (text "initialize").all (fun b => 0x61 ≤ b ∧ b ≤ 0x7A) = true := by decide
  have hword (b) (hb : b ∈ text "initialize") : 0x61 ≤ b ∧ b ≤ 0x7A :=
    of_decide_eq_true (all_eq_true.mp hall b hb)
  have hshows := ht.shows hword
  rw [namesInitialize_iff, namesInitialize_iff, cString_append hshows.zero_notMem,
    ht.infix_append_iff hword, hshows.infix_iff]

end

section

variable {st : State} {headerLen totalNeeded : Nat} {req : HttpRequest}
  (hscan : scanRequest st.conn.readBuf = .request headerLen totalNeeded req)

include hscan

/-- The body of the request stands behind its headers. -/
theorem drop_eq_body_append : st.conn.readBuf.drop headerLen =
    req.body ++ st.conn.readBuf.drop (headerLen + req.body.length) := by
  unfold scanRequest at hscan
  split at hscan
  · cases hscan
  next hsEnd hend =>
    dsimp only at hscan
    split_ifs at hscan
    split at hscan
    · cases hscan
    next hparse =>
      cases hscan
      have hwhole := mcpHttpParseRequest_append hparse
      obtain ⟨lineEnd, hsEnd', h⟩ := mcpHttpParseRequest_eq_some_iff.mp
        (take_append_drop _ st.conn.readBuf ▸ hwhole _)
      obtain rfl : hsEnd = hsEnd' := some.inj (hend.symm.trans h.headers_end)
      obtain ⟨behind, hbehind⟩ := prefix_of_parseBody h.body
      have hdrop := drop_drop (i := req.body.length) (j := hsEnd + 4) (l := st.conn.readBuf)
      rw [← hdrop, ← hbehind, drop_left]

theorem createsSession_iff_namesInitialize (hwants : wantsUpgrade req = false)
    (hpost : req.method = .post) (hbody : req.body ≠ [])
    (hsid : mcpHttpHeader req "Mcp-Session-Id" = none) :
    CreatesSession st ↔ NamesInitialize (st.conn.readBuf.drop headerLen) := by
  have hbranch : requestBranch st.cfg st.shared req (st.conn.readBuf.drop headerLen) =
      postBranch st.shared req (st.conn.readBuf.drop headerLen) := by
    rw [requestBranch, hwants, hpost]
    rfl
  rw [CreatesSession, State.processHttpRequest, hscan]
  dsimp only
  rw [created_takeBranch, hbranch, NamesInitialize, postBranch, if_neg hbody, hsid]
  dsimp only
  split
  next hword => exact iff_of_true rfl hword
  next hword => exact iff_of_false (by simp [Branch.created]) hword

end

def postRequest (body : Bytes) : HttpRequest where
  method := .post
  target := "/"
  headers := [⟨"Content-Length", unsignedDecimal body.length⟩]
  body := body

def postState (body : Bytes) : State :=
  { State.accepted ⟨true, true⟩ ⟨[], 0, 0⟩ with
    conn := { Conn.accepted with
      readBuf := text "POST / HTTP/1.1" ++ crlf ++ text "Content-Length: " ++
        unsignedDecimal body.length ++ crlfCrlf ++ body } }

/-- The word is the value of a parameter. -/
def pingBody : Bytes :=
  text "\x7b\"jsonrpc\":\"2.0\",\"id\":1,\"method\":\"ping\"," ++
    text "\"params\":\x7b\"a\":\"initialize\"\x7d\x7d"

def initializeBody : Bytes := "\x7b\"jsonrpc\":\"2.0\",\"id\":1,\"method\":\"initialize\"\x7d"

end Mcpkit.Transport.Async
