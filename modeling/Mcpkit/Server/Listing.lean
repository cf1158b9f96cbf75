import Mcpkit.Lib.Decimal
import Mcpkit.Lib.Paging
import Mcpkit.Server.HiddenTools

/-!
# Listings

Four methods list a registry in pages of a hundred entries.  A cursor is the
decimal number of the first entry of a page.  The four routes do the same with
different registries, so what is proved about pages is proved once.

The number in a cursor is read into a `size_t` without a test for overflow.
-/

namespace Mcpkit

open Json JsonValue Protocol List JString Option Nat Assoc

variable {W : Type}

/-- The methods that list a registry. -/
inductive Listing where
  | tools | resources | prompts | skills
  deriving DecidableEq

namespace Listing

def method : Listing → JString
  | tools => "tools/list"
  | resources => "resources/list"
  | prompts => "prompts/list"
  | skills => "skills/list"

def key : Listing → String
  | tools => "tools"
  | resources => "resources"
  | prompts => "prompts"
  | skills => "skills"

def badCursor : Listing → String
  | tools => "tools/list: bad cursor"
  | resources => "resources/list: bad cursor"
  | prompts => "prompts/list: bad cursor"
  | skills => "invalid cursor"

/-- The entries of all listed items; an item whose texts are not valid UTF-8 has none. -/
def entries (srv : Server W) (s : Session) : Listing → List (Option JsonValue)
  | tools => (visibleTools srv.tools s).map toolEntry
  | resources => srv.resources.map resourceEntry
  | prompts => srv.prompts.map promptEntry
  | skills => (srv.skillReg.getD []).map mcpSkillToJson

/-- Skills are listed once the host has set a registry of skills. -/
def Enabled (srv : Server W) : Listing → Prop
  | skills => srv.skillReg.isSome = true
  | _ => True

def route (srv : Server W) (s : Session) (req : Message) : Listing → Option Message
  | tools => routeToolsList srv s req
  | resources => routeResourcesList srv req
  | prompts => routePromptsList srv req
  | skills => routeSkillsList srv req

theorem mcpServerRouteRequest (srv : Server W) (s : Session) (req : Message) (l : Listing) :
    Mcpkit.mcpServerRouteRequest srv s req l.method = (srv, s, l.route srv s req) := by
  cases l <;> rfl

end Listing

def pageOf {α : Type} (items : List α) (offset : Nat) : List α :=
  (items.take (pageEnd offset)).drop offset

def nextOf (length offset : Nat) : Option Nat :=
  if pageEnd offset < length then some (pageEnd offset) else none

variable {α : Type}

theorem map_pageOf {β : Type} (f : α → β) (items : List α) (offset : Nat) :
    (pageOf items offset).map f = pageOf (items.map f) offset := by
  rw [pageOf, pageOf, map_drop, map_take]

theorem filter_zipIdx_eq (items : List α) (start off stop : Nat) :
    ((items.zipIdx start).filter fun p => !(p.2 < off || stop ≤ p.2)).map Prod.fst =
      (items.take (stop - start)).drop (off - start) := by
  induction items generalizing start with
  | nil => simp
  | cons a items ih =>
    rw [zipIdx_cons]
    by_cases hlow : start < off
    · rw [filter_cons_of_neg (by simp [hlow]), ih]
      obtain ⟨k, hk⟩ : ∃ k, off - start = k + 1 := ⟨off - start - 1, by omega⟩
      rw [hk, show off - (start + 1) = k by omega]
      by_cases hhigh : start < stop
      · rw [show stop - start = stop - (start + 1) + 1 by omega, take_succ_cons, drop_succ_cons]
      · rw [show stop - (start + 1) = 0 by omega, show stop - start = 0 by omega]
        simp
    by_cases hhigh : start < stop
    · rw [filter_cons_of_pos (by simp [hlow, hhigh]), map_cons, ih,
        show stop - start = stop - (start + 1) + 1 by omega, take_succ_cons,
        show off - start = 0 by omega, show off - (start + 1) = 0 by omega]
      rfl
    · rw [filter_cons_of_neg (by simp [hhigh]), ih,
        show stop - (start + 1) = 0 by omega, show stop - start = 0 by omega]
      simp

theorem toolsPage_eq (visible : List (Tool W)) (offset : Nat) :
    toolsPage visible offset = pageOf visible offset :=
  filter_zipIdx_eq visible 0 offset (pageEnd offset)

theorem indexPage_eq (items : List α) (offset : Nat) :
    indexPage items offset = (pageOf items offset, nextOf items.length offset) := by
  rw [indexPage, pageOf, nextOf]
  by_cases h : pageEnd offset < items.length
  · simp only [if_pos h]
  · simp [if_neg h, take_of_length_le (Nat.le_of_not_lt h)]

theorem mapM_eq_mapM_id {β : Type} (f : α → Option β) (l : List α) :
    l.mapM f = (l.map f).mapM id := by
  induction l with
  | nil => rfl
  | cons a l ih =>
    rw [map_cons, mapM_cons, mapM_cons, ih]
    rfl

variable {srv : Server W} {l : Listing} {req m : Message} {s : Session} {page : List JsonValue}
  {n : Nat}

theorem Listing.route_eq (h : l.Enabled srv) (s : Session) (req : Message) :
    l.route srv s req =
      if pageOffset req = badOffset then errResp req rpcInvalidParams l.badCursor
      else ((pageOf (l.entries srv s) (pageOffset req)).mapM id).bind fun page =>
        respondPage srv req l.key page (nextOf (l.entries srv s).length (pageOffset req)) := by
  cases l with
  | tools =>
    simp only [route, routeToolsList, toolsPage_eq, mapM_eq_mapM_id toolEntry, map_pageOf, entries,
      length_map]
    rfl
  | resources =>
    simp only [route, routeResourcesList, indexPage_eq, mapM_eq_mapM_id resourceEntry, map_pageOf,
      entries, length_map]
    rfl
  | prompts =>
    simp only [route, routePromptsList, indexPage_eq, mapM_eq_mapM_id promptEntry, map_pageOf,
      entries, length_map]
    rfl
  | skills =>
    obtain ⟨reg, hreg⟩ := isSome_iff_exists.mp h
    simp only [route, routeSkillsList, hreg, indexPage_eq, mapM_eq_mapM_id mcpSkillToJson,
      map_pageOf, entries, getD_some, length_map]
    rfl

def cursorOf (req : Message) : Option JsonValue :=
  (mcpMessageParams req).bind (·.objectGet "cursor")

theorem accumulateDigits_eq {digits : Bytes} (h : ∀ b ∈ digits, Decimal.IsDigit b) (n : Nat) :
    accumulateDigits digits (n % sizeModulus) =
      some (Decimal.valueFrom n digits % sizeModulus) := by
  induction digits generalizing n with
  | nil => rfl
  | cons b digits ih =>
    have hb : 0x30 ≤ b ∧ b ≤ 0x39 := h b mem_cons_self
    have hstep : (n % sizeModulus * 10 + (b.toNat - 0x30)) % sizeModulus =
        (n * 10 + Decimal.digit b) % sizeModulus := by
      rw [add_mod, mul_mod, mod_mod, ← mul_mod, ← add_mod]
      rfl
    rw [accumulateDigits, if_pos hb, hstep, Decimal.valueFrom_cons]
    exact ih (fun b hb => h b (mem_cons_of_mem _ hb)) _

variable {cursor : JString} {key : String} {entries : List (Option JsonValue)}

theorem pageOffset_eq (hcursor : cursorOf req = some (.string cursor)) (hne : cursor.bytes ≠ [])
    (hdigits : ∀ b ∈ cursor.bytes, Decimal.IsDigit b) :
    pageOffset req = Decimal.value cursor.bytes % sizeModulus := by
  have hdigits := accumulateDigits_eq hdigits 0
  rw [zero_mod] at hdigits
  rw [cursorOf] at hcursor
  simp only [pageOffset, hcursor, if_neg hne, hdigits]
  rfl

theorem pageOffset_eq_badOffset (hcursor : cursorOf req = some (.string cursor))
    (h : cursor.bytes = []) : pageOffset req = badOffset := by
  rw [cursorOf] at hcursor
  simp only [pageOffset, hcursor, if_pos h]

theorem pageOffset_eq_zero (h : cursorOf req = none) : pageOffset req = 0 := by
  rw [cursorOf] at h
  simp only [pageOffset, h]

theorem bytes_lit_toString (n : Nat) : (lit (toString n)).bytes = Decimal.numeral n := by
  have hencode : (toDigits 10 n).flatMap String.utf8EncodeChar = Decimal.numeral n := by
    rw [Decimal.numeral, map_eq_flatMap]
    apply flatMap_congr
    intro c hc
    exact Utf8.utf8EncodeChar_of_lt (Decimal.toNat_lt_of_mem_toDigits hc)
  have hnul : (0 : UInt8) ∉ Decimal.numeral n := by
    intro hmem
    exact absurd (Decimal.isDigit_of_mem_numeral hmem) (by decide)
  change cString (toString n).toByteArray.data.toList = _
  rw [toString_eq_ofList_toDigits, String.toByteArray_ofList, List.utf8Encode,
    data_toByteArray, hencode, cString_of_notMem hnul]

theorem value_lit_toString (n : Nat) : Decimal.value (lit (toString n)).bytes = n := by
  rw [bytes_lit_toString, Decimal.value_numeral]

/-- The page of a reply and its next cursor, as a client reads them. -/
def readPage (key : String) (m : Message) : Option (List JsonValue × Option JString) :=
  match (mcpMessageResult m).bind (·.objectGet key) with
  | some (.array items) =>
    some (items, ((mcpMessageResult m).bind (·.objectGet "nextCursor")).bind (·.stringValue))
  | _ => none

def cursorFor (offset : Nat) : JString := .lit (toString offset)

theorem exists_respondPage (h : ∀ t ∈ srv.listCacheScope, t.Printable) (req : Message) (l : Listing)
    (page : List JsonValue) (next : Option Nat) :
    ∃ members, respondPage srv req l.key page next =
        some ((newEnvelope.set "id" (replyId req)).set "result" (.object members)) ∧
      members.lookup (.lit l.key) = some (.array page) ∧
      members.lookup (.lit "nextCursor") = next.map fun pos => .string (cursorFor pos) := by
  have hkey : lit l.key ≠ .lit "nextCursor" := by cases l <;> decide
  have hplain : ∀ key ∈ ["resultType", "ttlMs", "cacheScope", "_meta"],
      lit l.key ≠ .lit key := by cases l <;> decide
  have hpage : ([(.lit l.key, .array page)] : MemberList).lookup (.lit l.key) =
      some (.array page) := by rw [lookup_cons, beq_self_eq_true]
  have hdecorated := Responds.decorated h req true
  rw [respondPage, setTake_object, Assoc.set_nil]
  cases next with
  | none =>
    obtain ⟨members, heq, hlookup⟩ := hdecorated [(.lit l.key, .array page)]
    refine ⟨members, heq, ?_, ?_⟩
    · rw [hlookup _ hplain, hpage]
    · rw [hlookup _ (by decide), lookup_cons, beq_eq_false_iff_ne.mpr hkey.symm]
      rfl
  | some pos =>
    obtain ⟨members, heq, hlookup⟩ := hdecorated (set [(.lit l.key, .array page)]
      (.lit "nextCursor") (.string (cursorFor pos)))
    refine ⟨members, ?_, ?_, ?_⟩
    · have hnext : setNextCursor (.object [(.lit l.key, .array page)]) (some pos) =
          some (.object (set [(.lit l.key, .array page)] (.lit "nextCursor")
            (.string (cursorFor pos)))) :=
        setTake_object [(.lit l.key, .array page)] "nextCursor" (.string (cursorFor pos))
      rwa [bind_eq_bind, bind_some, hnext]
    · rw [hlookup _ hplain, lookup_set_of_ne _ hkey, hpage]
    · rw [hlookup _ (by decide), lookup_set_self, map_some]

theorem readPage_errResp {code : Int32} {text : String} (h : errResp req code text = some m)
    (key : String) : readPage key m = none := by
  obtain ⟨d, hm⟩ := exists_mcpResponseErrNew req code text
  rw [errResp, hm] at h
  cases h
  rfl

/-- The dispatch of a request that the gate hands to a listing: nothing but the shared state of the
server changes, and the session is the one the gate made. -/
theorem mcpServerDispatch_listing (srv : Server W) {s' : Session}
    (hrequest : mcpMessageKind req = .request) (hgate : dispatchGate s req = .route l.method s') :
    ∃ x, mcpServerDispatch srv s req = (srv.withShared x, s', replyOf req (l.route srv s req)) := by
  obtain ⟨x₁, hx₁⟩ := srv.withShared_adoptLogLevel srv.shared req
  obtain ⟨x₂, hx₂⟩ := srv.withShared_trace x₁ (.begin l.method)
  have hroute : l.route (srv.withShared x₂) s' req = l.route srv s req := by
    cases l with
    | tools =>
      simp only [Listing.route, routeToolsList, toolHidden_congr (appsHost_of_gate hgate)]
      rfl
    | _ => rfl
  have hdispatch : mcpServerDispatch srv s req =
      dispatchRoute (srv.withShared x₁) s' req l.method := by
    rw [← hx₁]
    simp only [mcpServerDispatch, if_neg (not_not.mpr hrequest), hgate]
    rfl
  rw [hdispatch, dispatchRoute, hx₂, Listing.mcpServerRouteRequest, hroute]
  cases l.route srv s req with
  | none =>
    obtain ⟨x₃, hx₃⟩ := srv.withShared_countError x₂
    obtain ⟨x₄, hx₄⟩ := srv.withShared_trace x₃ (.finish l.method rpcInternalError.toInt)
    refine ⟨x₄, ?_⟩
    simp only [hx₃, hx₄]
    rfl
  | some resp =>
    obtain ⟨x₃, hx₃⟩ : ∃ x₃, (if (mcpMessageErrorCode resp).getD 0 ≠ 0
        then (srv.withShared x₂).countError else srv.withShared x₂) = srv.withShared x₃ := by
      split
      · exact srv.withShared_countError x₂
      · exact ⟨x₂, rfl⟩
    obtain ⟨x₄, hx₄⟩ := srv.withShared_trace x₃
      (.finish l.method ((mcpMessageErrorCode resp).getD 0))
    refine ⟨x₄, ?_⟩
    simp only [hx₃, hx₄]
    rfl

theorem reply_listing (h : Reaches s req l.method) :
    (mcpServerDispatch srv s req).2.2 = replyOf req (l.route srv s req) := by
  obtain ⟨hrequest, s', hgate⟩ := h
  obtain ⟨x, hdispatch⟩ := mcpServerDispatch_listing srv hrequest hgate
  rw [hdispatch]

theorem mapM_id_eq_some {l : List (Option α)} {vs : List α} :
    l.mapM id = some vs ↔ l = vs.map some := by
  induction l generalizing vs with
  | nil => cases vs <;> simp
  | cons a l ih =>
    rw [mapM_cons]
    simp only [id, Option.bind_eq_bind, Option.bind_eq_some_iff, ih, Option.pure_def,
      Option.some.injEq]
    constructor
    · rintro ⟨v, rfl, vs', rfl, rfl⟩
      rfl
    intro h
    cases vs with
    | nil => cases h
    | cons v vs' =>
      obtain ⟨rfl, rfl⟩ := cons_eq_cons.mp h
      exact ⟨v, rfl, vs', rfl, rfl⟩

theorem exists_eq_map_some {l : List (Option α)} (h : ∀ e ∈ l, e.isSome) :
    ∃ vs : List α, l = vs.map some := by
  induction l with
  | nil => exact ⟨[], rfl⟩
  | cons e l ih =>
    obtain ⟨v, rfl⟩ := isSome_iff_exists.mp (h e mem_cons_self)
    obtain ⟨vs, rfl⟩ := ih fun e he => h e (mem_cons_of_mem _ he)
    exact ⟨v :: vs, rfl⟩

theorem readPage_result {id : JsonValue} {members : MemberList} {next : Option Nat}
    (hpage : members.lookup (.lit key) = some (.array page))
    (hnext : members.lookup (.lit "nextCursor") = next.map fun pos => .string (cursorFor pos)) :
    readPage key ((newEnvelope.set "id" id).set "result" (.object members)) =
      some (page, next.map cursorFor) := by
  have hresult : mcpMessageResult ((newEnvelope.set "id" id).set "result" (.object members)) =
      some (.object members) := Message.getKey_set_self _ _ _
  have hget : ∀ k, (JsonValue.object members).objectGet k = members.lookup k := fun _ => rfl
  simp only [readPage, hresult, bind_some, hget, hpage, hnext]
  cases next <;> rfl

theorem eq_some_of_readPage {o : Option Message} {p : List JsonValue × Option JString}
    (h : replyOf req o = .ok m) (hread : readPage key m = some p) : o = some m := by
  cases o with
  | some m' =>
    cases h
    rfl
  | none =>
    obtain ⟨m', hm', -⟩ := exists_errResp req rpcInternalError "internal error"
    rw [replyOf, hm'] at h
    cases h
    rw [readPage_errResp hm'] at hread
    cases hread

theorem respondPage_eq_none {t : CString} (ht : srv.listCacheScope = some t) (h : ¬t.Printable)
    (req : Message) (key : String) (page : List JsonValue) (next : Option Nat) :
    respondPage srv req key page next = none :=
  bind_eq_none_iff.mpr fun _ _ => bind_eq_none_iff.mpr fun _ _ =>
    respondDecorated_eq_none ht h req _

theorem exists_route_page (henabled : l.Enabled srv) (hoffset : pageOffset req ≠ badOffset)
    (hscope : ∀ t ∈ srv.listCacheScope, t.Printable)
    (hpage : pageOf (l.entries srv s) (pageOffset req) = page.map some) :
    ∃ members, l.route srv s req = respondPage srv req l.key page
        (nextOf (l.entries srv s).length (pageOffset req)) ∧
      l.route srv s req =
        some ((newEnvelope.set "id" (replyId req)).set "result" (.object members)) ∧
      members.lookup (.lit l.key) = some (.array page) ∧
      members.lookup (.lit "nextCursor") =
        (nextOf (l.entries srv s).length (pageOffset req)).map fun pos =>
          .string (cursorFor pos) := by
  obtain ⟨members, heq, hlookup⟩ := exists_respondPage hscope req l page
    (nextOf (l.entries srv s).length (pageOffset req))
  have hroute : l.route srv s req = respondPage srv req l.key page
      (nextOf (l.entries srv s).length (pageOffset req)) := by
    rw [Listing.route_eq henabled, if_neg hoffset, mapM_id_eq_some.mpr hpage, bind_some]
  exact ⟨members, hroute, hroute.trans heq, hlookup⟩

theorem exists_reply_page (henabled : l.Enabled srv) (hreach : Reaches s req l.method)
    (hoffset : pageOffset req ≠ badOffset) (hscope : ∀ t ∈ srv.listCacheScope, t.Printable)
    (hpage : pageOf (l.entries srv s) (pageOffset req) = page.map some) :
    ∃ members, (mcpServerDispatch srv s req).2.2 =
        .ok ((newEnvelope.set "id" (replyId req)).set "result" (.object members)) ∧
      members.lookup (.lit l.key) = some (.array page) ∧
      members.lookup (.lit "nextCursor") =
        (nextOf (l.entries srv s).length (pageOffset req)).map fun pos =>
          .string (cursorFor pos) := by
  obtain ⟨members, -, hroute, hlookup⟩ := exists_route_page henabled hoffset hscope hpage
  refine ⟨members, ?_, hlookup⟩
  rw [reply_listing hreach, hroute]
  rfl

theorem reply_page_eq (henabled : l.Enabled srv) (hreach : Reaches s req l.method)
    (hreply : (mcpServerDispatch srv s req).2.2 = .ok m) {next : Option JString}
    (hread : readPage l.key m = some (page, next)) :
    pageOffset req ≠ badOffset ∧ (∀ t ∈ srv.listCacheScope, t.Printable) ∧
      pageOf (l.entries srv s) (pageOffset req) = page.map some ∧
      next = (nextOf (l.entries srv s).length (pageOffset req)).map cursorFor := by
  rw [reply_listing hreach] at hreply
  have hroute := eq_some_of_readPage hreply hread
  rw [Listing.route_eq henabled] at hroute
  by_cases hoffset : pageOffset req = badOffset
  · rw [if_pos hoffset] at hroute
    rw [readPage_errResp hroute] at hread
    cases hread
  rw [if_neg hoffset] at hroute
  obtain ⟨page', hpage', hrespond⟩ := bind_eq_some_iff.mp hroute
  have hscope : ∀ t ∈ srv.listCacheScope, t.Printable := by
    intro t ht
    by_contra hprint
    rw [respondPage_eq_none ht hprint] at hrespond
    cases hrespond
  obtain ⟨members, heq, hmembers, hnext⟩ := exists_respondPage hscope req l page' _
  rw [heq] at hrespond
  cases hrespond
  rw [readPage_result hmembers hnext] at hread
  cases hread
  exact ⟨hoffset, hscope, mapM_id_eq_some.mp hpage', rfl⟩

/-- The page and the next cursor are those of the item with a number. -/
structure PagedAt (entries : List (Option JsonValue)) (n : Nat) (page : List JsonValue)
    (next : Option JString) : Prop where
  past : entries.length ≤ n → page = [] ∧ next = none
  start : n < entries.length → ∃ v, page.head? = some v ∧ entries[n]? = some (some v)
  forward : ∀ c, next = some c → (∀ b ∈ c.bytes, Decimal.IsDigit b) ∧ n < Decimal.value c.bytes

/-- The request is answered with the page and the next cursor. -/
def AnswersWith (l : Listing) (srv : Server W) (s : Session) (req : Message)
    (page : List JsonValue) (next : Option JString) : Prop :=
  ∃ m, (mcpServerDispatch srv s req).2.2 = .ok m ∧ readPage l.key m = some (page, next)

/-- Neither the number nor the end of its page exceeds `size_t`, or what they wrap to is past the
end of the registry as well. -/
def Unwrapped (length n : Nat) : Prop :=
  n + mcpListPageSize < sizeModulus ∨
    n % sizeModulus ≠ badOffset ∧ length ≤ n % sizeModulus ∧ length ≤ pageEnd (n % sizeModulus)

theorem page_of_unwrapped {items : List α} (h : Unwrapped items.length n) :
    n % sizeModulus ≠ badOffset ∧ pageOf items (n % sizeModulus) = (items.drop n).take 100 ∧
      nextOf items.length (n % sizeModulus) =
        if n + 100 < items.length then some (n + 100) else none := by
  obtain h | ⟨hbad, hlen, hend⟩ := h
  · have hlt : n + 100 < sizeModulus := h
    have hmod : n % sizeModulus = n := mod_eq_of_lt (by omega)
    have hend : pageEnd n = n + 100 := mod_eq_of_lt hlt
    rw [hmod, pageOf, nextOf, hend, drop_take, Nat.add_sub_cancel_left]
    refine ⟨?_, rfl, rfl⟩
    simp only [badOffset, sizeModulus] at hlt ⊢
    omega
  · have hle : items.length ≤ n := hlen.trans (mod_le n sizeModulus)
    refine ⟨hbad, ?_, ?_⟩
    · rw [pageOf, drop_eq_nil_of_le (by simp; omega), drop_eq_nil_of_le hle, take_nil]
    · rw [nextOf, if_neg (by omega), if_neg (by omega)]

theorem pagedAt_of_page (h : (entries.drop n).take 100 = page.map some) :
    PagedAt entries n page
      ((if n + 100 < entries.length then some (n + 100) else none).map cursorFor) where
  past hle := by
    rw [drop_eq_nil_of_le hle, take_nil] at h
    rw [if_neg (by omega)]
    exact ⟨map_eq_nil_iff.mp h.symm, rfl⟩
  start hlt := by
    have hhead := congrArg List.head? h
    rw [head?_take, if_neg (by decide), head?_drop, head?_map] at hhead
    rw [getElem?_eq_getElem hlt] at hhead
    obtain ⟨v, hv, heq⟩ := map_eq_some_iff.mp hhead.symm
    exact ⟨v, hv, by rw [getElem?_eq_getElem hlt, heq]⟩
  forward c hc := by
    split at hc
    · cases hc
      rw [cursorFor, value_lit_toString, bytes_lit_toString]
      exact ⟨fun b hb => Decimal.isDigit_of_mem_numeral hb, by omega⟩
    · cases hc

theorem unwrapped_of_pagedAt (hlen : entries.length < sizeModulus)
    (hbad : n % sizeModulus ≠ badOffset) (hpage : pageOf entries (n % sizeModulus) = page.map some)
    (h : PagedAt entries n page ((nextOf entries.length (n % sizeModulus)).map cursorFor)) :
    Unwrapped entries.length n := by
  by_cases hlow : entries.length ≤ n
  · -- nothing is listed, so the page that was read ends the registry
    obtain ⟨rfl, hnone⟩ := h.past hlow
    have hend : entries.length ≤ pageEnd (n % sizeModulus) := by
      by_contra hlt
      rw [nextOf, if_pos (Nat.lt_of_not_le hlt)] at hnone
      cases hnone
    have hoffset : entries.length ≤ n % sizeModulus := by
      rw [pageOf, take_of_length_le hend] at hpage
      exact drop_eq_nil_iff.mp hpage
    exact .inr ⟨hbad, hoffset, hend⟩
  -- the offset is exact; where the end of the page wraps there is no page
  have hmod : n % sizeModulus = n := mod_eq_of_lt (by omega)
  obtain ⟨v, hhead, -⟩ := h.start (Nat.lt_of_not_le hlow)
  by_contra hwrap
  have hend : pageEnd n < n := by
    have hle : ¬n + 100 < sizeModulus := fun hlt => hwrap (.inl hlt)
    have hmod : (n + 100) % sizeModulus = n + 100 - sizeModulus := by
      rw [Nat.mod_eq_sub_mod (Nat.le_of_not_lt hle)]
      exact mod_eq_of_lt (by simp only [sizeModulus] at *; omega)
    have heq : pageEnd n = n + 100 - sizeModulus := hmod
    rw [heq]
    simp only [sizeModulus] at hle ⊢
    omega
  rw [hmod, pageOf, drop_eq_nil_of_le (by simp; omega)] at hpage
  rw [map_eq_nil_iff.mp hpage.symm] at hhead
  cases hhead

/-- A cursor of digits is answered with a page exactly if there is a digit, the number does not wrap
to the mark of a bad cursor, and the texts of the page are valid UTF-8.  The page is the one that
the cursor denotes exactly if nothing wraps into the registry. -/
theorem pagedAt_iff_unwrapped {l : Listing} {srv : Server W} {s : Session} {req : Message}
    (henabled : l.Enabled srv) (hlength : (l.entries srv s).length < sizeModulus)
    (hreach : Reaches s req l.method) {cursor : JString}
    (hcursor : cursorOf req = some (.string cursor))
    (hdigits : ∀ b ∈ cursor.bytes, Decimal.IsDigit b) :
    ((∃ page next, AnswersWith l srv s req page next) ↔
      cursor.bytes ≠ [] ∧ Decimal.value cursor.bytes % sizeModulus ≠ badOffset ∧
        (∀ t ∈ srv.listCacheScope, t.Printable) ∧
        ∀ e ∈ pageOf (l.entries srv s) (Decimal.value cursor.bytes % sizeModulus), e.isSome) ∧
    ∀ page next, AnswersWith l srv s req page next →
      (PagedAt (l.entries srv s) (Decimal.value cursor.bytes) page next ↔
        Unwrapped (l.entries srv s).length (Decimal.value cursor.bytes)) := by
  have hne : pageOffset req ≠ badOffset → cursor.bytes ≠ [] := fun hbad h =>
    hbad (pageOffset_eq_badOffset hcursor h)
  refine ⟨⟨?_, ?_⟩, ?_⟩
  · rintro ⟨page, next, m, hreply, hread⟩
    obtain ⟨hbad, hscope, hpage, -⟩ := reply_page_eq henabled hreach hreply hread
    have hoffset := pageOffset_eq hcursor (hne hbad) hdigits
    rw [hoffset] at hpage
    refine ⟨hne hbad, hoffset ▸ hbad, hscope, ?_⟩
    rw [hpage]
    intro e he
    obtain ⟨v, -, rfl⟩ := mem_map.mp he
    exact isSome_some
  · rintro ⟨hne, hbad, hscope, hentries⟩
    obtain ⟨page, hpage⟩ := exists_eq_map_some hentries
    rw [← pageOffset_eq hcursor hne hdigits] at hbad hpage
    obtain ⟨members, hreply, hmembers, hnext⟩ := exists_reply_page henabled hreach hbad hscope hpage
    exact ⟨page, _, _, hreply, readPage_result hmembers hnext⟩
  · rintro page next ⟨m, hreply, hread⟩
    obtain ⟨hbad, -, hpage, rfl⟩ := reply_page_eq henabled hreach hreply hread
    have hoffset := pageOffset_eq hcursor (hne hbad) hdigits
    rw [hoffset] at hbad hpage ⊢
    refine ⟨unwrapped_of_pagedAt hlength hbad hpage, fun hunwrapped => ?_⟩
    obtain ⟨-, hpageOf, hnext⟩ := page_of_unwrapped hunwrapped
    rw [hnext]
    exact pagedAt_of_page (hpageOf.symm.trans hpage)

def oneResource : Server Unit :=
  { bareServer with resources := [⟨"u", "r", none, none⟩] }

def listResources (cursor : String) : Message :=
  ⟨[("jsonrpc", .string "2.0"), ("id", .string "1"),
    ("method", .string "resources/list"), ("_meta", .object []),
    ("params", .object [("cursor", .string cursor)])]⟩

theorem reaches_listResources (cursor : String) :
    Reaches sessionNew (listResources cursor) Listing.resources.method :=
  ⟨rfl, _, rfl⟩

theorem pagedAt_seven :
    ∃ page next, AnswersWith .resources oneResource sessionNew (listResources "7") page next ∧
      PagedAt (Listing.resources.entries oneResource sessionNew) 7 page next := by
  have henabled : Listing.resources.Enabled oneResource := trivial
  have hdigits : ∀ b ∈ (lit "7").bytes, Decimal.IsDigit b := by
    intro b hb
    rw [mem_singleton.mp hb]
    decide
  obtain ⟨hanswered, hpaged⟩ := pagedAt_iff_unwrapped henabled (by decide)
    (reaches_listResources "7") rfl hdigits
  obtain ⟨page, next, hanswer⟩ := hanswered.mpr
    ⟨by decide, by decide, by rintro _ ⟨⟩, by rintro _ ⟨⟩⟩
  exact ⟨page, next, hanswer, (hpaged page next hanswer).mpr (.inl (by decide))⟩

/-- The number `2 ^ 64` wraps to `0`, and the page starts over. -/
theorem not_pagedAt_wrapped :
    ∃ page next, AnswersWith .resources oneResource sessionNew
        (listResources "18446744073709551616") page next ∧
      ¬PagedAt (Listing.resources.entries oneResource sessionNew) 18446744073709551616 page
        next := by
  refine ⟨_, _, ⟨_, rfl, rfl⟩, fun hpaged => ?_⟩
  obtain ⟨hnil, -⟩ := hpaged.past (by decide)
  cases hnil

end Mcpkit
