import Mcpkit.Server.Listing

/-!
# Reading a listing to its end

A client starts a listing without a cursor and passes back each cursor it is
given.  Between two of its requests anything may happen to the server and to
the session, as long as the registries stay as they are and the session remains
one that accepts the next request.
-/

namespace Mcpkit

open Json JsonValue Protocol List Decimal Option

variable {W : Type}

/-- The texts of the registries are valid UTF-8. -/
structure ValidTexts (srv : Server W) : Prop where
  tools : ∀ t ∈ srv.tools, t.name.Printable ∧ ∀ d ∈ t.description, d.Printable
  resources : ∀ r ∈ srv.resources, r.uri.Printable ∧ r.name.Printable ∧
    ∀ m ∈ r.mimeType, m.Printable
  prompts : ∀ p ∈ srv.prompts, p.name.Printable ∧ ∀ d ∈ p.description, d.Printable
  skills : ∀ k ∈ srv.skillReg.getD [], k.name.Printable ∧ k.description.Printable ∧
    k.uri.Printable ∧ ∀ r ∈ k.resources, r.uri.Printable ∧ r.digest.Printable
  cacheScope : ∀ t ∈ srv.listCacheScope, t.Printable

theorem Extends.isSome {keys : List String} {step : JsonValue → Option JsonValue}
    (h : Extends keys step) : (step (.object [])).isSome := by
  obtain ⟨members, heq, -⟩ := h []
  rw [heq]
  rfl

theorem isSome_toolEntry {t : Tool W} (hname : t.name.Printable)
    (hdescription : ∀ d ∈ t.description, d.Printable) : (toolEntry t).isSome :=
  ((Extends.setString "name" hname).bind <|
    (Extends.setStringOpt "description" hdescription).bind <|
    (Extends.setOptional "inputSchema" _).bind <|
    (Extends.setOptional "outputSchema" _).bind <| Extends.setOptional "_meta" _).isSome

theorem isSome_resourceEntry {r : Resource W} (huri : r.uri.Printable) (hname : r.name.Printable)
    (hmime : ∀ m ∈ r.mimeType, m.Printable) : (resourceEntry r).isSome :=
  ((Extends.setString "uri" huri).bind <| (Extends.setString "name" hname).bind <|
    Extends.setStringOpt "mimeType" hmime).isSome

theorem isSome_promptEntry {p : Prompt W} (hname : p.name.Printable)
    (hdescription : ∀ d ∈ p.description, d.Printable) : (promptEntry p).isSome :=
  ((Extends.setString "name" hname).bind <|
    Extends.setStringOpt "description" hdescription).isSome

theorem Extends.setFrontmatter (skill : Skill) :
    Extends ["frontmatter"] (Protocol.setFrontmatter · skill) := by
  intro members
  cases hfront : skill.frontmatter with
  | some v =>
    simp only [Protocol.setFrontmatter, hfront]
    exact setTake "frontmatter" _ members
  | none =>
    simp only [Protocol.setFrontmatter, hfront, setTakeIgnored, bind_some, setTake_object,
      getD_some]
    exact ⟨_, rfl, fun k hk => Assoc.lookup_set_of_ne members (hk _ mem_cons_self) _⟩

theorem isSome_mcpSkillToJson {k : Skill} (huri : k.uri.Printable) : (mcpSkillToJson k).isSome := by
  rw [mcpSkillToJson, newString_of_printable huri]
  exact ((Extends.setTake "uri" _).bind <| (Extends.setFrontmatter k).bind <|
    Extends.setTake "resources" _).isSome

variable {srv : Server W} {req : Message} {s : Session} {cursor : Option JString} {offset : Nat}
  {l : Listing}

theorem ValidTexts.isSome_entries (h : ValidTexts srv) (l : Listing) (s : Session) :
    ∀ e ∈ l.entries srv s, e.isSome := by
  intro e he
  cases l with
  | tools =>
    obtain ⟨t, ht, rfl⟩ := mem_map.mp he
    obtain ⟨hname, hdescription⟩ := h.tools t (mem_of_mem_filter ht)
    exact isSome_toolEntry hname hdescription
  | resources =>
    obtain ⟨r, hr, rfl⟩ := mem_map.mp he
    obtain ⟨huri, hname, hmime⟩ := h.resources r hr
    exact isSome_resourceEntry huri hname hmime
  | prompts =>
    obtain ⟨p, hp, rfl⟩ := mem_map.mp he
    obtain ⟨hname, hdescription⟩ := h.prompts p hp
    exact isSome_promptEntry hname hdescription
  | skills =>
    obtain ⟨k, hk, rfl⟩ := mem_map.mp he
    exact isSome_mcpSkillToJson (h.skills k hk).2.2.1

structure IsListRequest (l : Listing) (cursor : Option JString) (req : Message) : Prop where
  request : mcpMessageKind req = .request
  valid : mcpMessageValidate req = .ok ()
  method : mcpMessageMethod req = some l.method
  cursor : cursorOf req = cursor.map .string

theorem dispatchGate_of_initialized {method : JString} (hvalid : mcpMessageValidate req = .ok ())
    (hmethod : mcpMessageMethod req = some method) (hinit : s.initialized = true)
    (hfresh : ∀ id, requestId req = some id → mcpIdsetContains s.ids id = false) :
    dispatchGate s req = .route method { s with ids := s.ids ++ (requestId req).toList } := by
  simp only [dispatchGate, hvalid, hmethod]
  rw [if_neg (by simp [hinit])]
  cases hid : requestId req with
  | none => simp
  | some id => simp [hfresh id hid, mcpIdsetAdd_of_not_contains (hfresh id hid)]

/-- The cursor stands for an offset; no cursor stands for the first page. -/
def CursorAt (cursor : Option JString) (offset : Nat) : Prop :=
  cursor = none ∧ offset = 0 ∨ cursor = some (cursorFor offset)

theorem pageOffset_of_cursorAt (h : CursorAt cursor offset) (hlt : offset < sizeModulus)
    (hcursor : cursorOf req = cursor.map .string) : pageOffset req = offset := by
  obtain ⟨rfl, rfl⟩ | rfl := h
  · exact pageOffset_eq_zero hcursor
  have hbytes : (cursorFor offset).bytes = numeral offset := bytes_lit_toString offset
  rw [pageOffset_eq hcursor, hbytes, value_numeral, Nat.mod_eq_of_lt hlt]
  · rw [hbytes]
    exact numeral_ne_nil offset
  · rw [hbytes]
    intro b hb
    exact isDigit_of_mem_numeral hb

variable {page : List JsonValue}

theorem exists_route_pageAt (henabled : l.Enabled srv)
    (hscope : ∀ t ∈ srv.listCacheScope, t.Printable) (hat : CursorAt cursor offset)
    (hlt : offset + 100 < sizeModulus) (hcursor : cursorOf req = cursor.map .string)
    (hpage : ((l.entries srv s).drop offset).take 100 = page.map some) :
    ∃ members next, l.route srv s req = respondPage srv req l.key page next ∧
      l.route srv s req =
        some ((newEnvelope.set "id" (replyId req)).set "result" (.object members)) ∧
      members.lookup (.lit l.key) = some (.array page) ∧
      members.lookup (.lit "nextCursor") = next.map (fun pos => .string (cursorFor pos)) ∧
      next = if offset + 100 < (l.entries srv s).length then some (offset + 100) else none := by
  have hoffset : pageOffset req = offset := pageOffset_of_cursorAt hat (by omega) hcursor
  have hunwrapped : Unwrapped (l.entries srv s).length offset := .inl hlt
  obtain ⟨hbad, hpageOf, hnext⟩ := page_of_unwrapped hunwrapped
  rw [Nat.mod_eq_of_lt (show offset < sizeModulus by omega)] at hbad hpageOf hnext
  rw [hpage] at hpageOf
  rw [← hoffset] at hbad hpageOf hnext
  obtain ⟨members, hrespond, hroute, hmembers, hmembers'⟩ :=
    exists_route_page henabled hbad hscope hpageOf
  rw [hoffset] at hnext
  rw [hoffset, hnext] at hmembers' hrespond
  exact ⟨members, _, hrespond, hroute, hmembers, hmembers', rfl⟩

/-- The states in which the requests of a client arrive, and the requests. -/
structure ListingRun (W : Type) where
  server : Nat → Server W
  session : Nat → Session
  request : Nat → Option JString → Message

structure SameRegistries (srv srv' : Server W) : Prop where
  tools : srv'.tools = srv.tools
  resources : srv'.resources = srv.resources
  prompts : srv'.prompts = srv.prompts
  skillReg : srv'.skillReg = srv.skillReg

theorem SameRegistries.entries {srv' : Server W} (h : SameRegistries srv srv') {s' : Session}
    (hkind : s'.appsHost = s.appsHost) (l : Listing) : l.entries srv' s' = l.entries srv s := by
  cases l with
  | tools => simp only [Listing.entries, h.tools, visibleTools_congr hkind]
  | resources => simp only [Listing.entries, h.resources]
  | prompts => simp only [Listing.entries, h.prompts]
  | skills => simp only [Listing.entries, h.skillReg]

theorem SameRegistries.enabled {srv' : Server W} (h : SameRegistries srv srv')
    (henabled : l.Enabled srv) : l.Enabled srv' := by
  cases l with
  | skills =>
    rwa [Listing.Enabled, h.skillReg]
  | _ => trivial

namespace ListingRun

/-- The registries do not change and hold valid texts, the session is initialized and keeps its
kind, and each request is valid and brings a new id. -/
structure Steady (run : ListingRun W) (l : Listing) : Prop where
  registries : ∀ i, SameRegistries (run.server 0) (run.server i)
  texts : ∀ i, ValidTexts (run.server i)
  kind : ∀ i, (run.session i).appsHost = (run.session 0).appsHost
  initialized : ∀ i, (run.session i).initialized = true
  request : ∀ i cursor, IsListRequest l cursor (run.request i cursor)
  fresh : ∀ i cursor id, requestId (run.request i cursor) = some id →
    mcpIdsetContains (run.session i).ids id = false

def entries (run : ListingRun W) (l : Listing) : List (Option JsonValue) :=
  l.entries (run.server 0) (run.session 0)

def ask (run : ListingRun W) (l : Listing) (i : Nat) (cursor : Option JString) :
    Nat × Option (List JsonValue × Option (Option JString)) :=
  (i + 1, ((mcpServerDispatch (run.server i) (run.session i)
    (run.request i cursor)).2.2.toOption.bind (readPage l.key)).map fun p => (p.1, p.2.map some))

/-- The entries from the offset of the cursor on are still to come. -/
def Rest (run : ListingRun W) (l : Listing) (_ : Nat) (cursor : Option JString)
    (items : List JsonValue) : Prop :=
  ∃ offset, CursorAt cursor offset ∧ offset ≤ (run.entries l).length ∧
    (run.entries l).drop offset = items.map some

variable {run : ListingRun W}

theorem Steady.reaches (h : run.Steady l) (i : Nat) (cursor : Option JString) :
    Reaches (run.session i) (run.request i cursor) l.method :=
  have hrequest := h.request i cursor
  ⟨hrequest.request, _, dispatchGate_of_initialized hrequest.valid hrequest.method
    (h.initialized i) (h.fresh i cursor)⟩

theorem Steady.ask_eq (h : run.Steady l) (henabled : l.Enabled (run.server 0))
    (hlt : offset + 100 < sizeModulus) (hcursor : CursorAt cursor offset)
    (hpage : ((run.entries l).drop offset).take 100 = page.map some) (i : Nat) :
    run.ask l i cursor = (i + 1, some (page,
      if offset + 100 < (run.entries l).length then some (some (cursorFor (offset + 100)))
      else none)) := by
  have hentries : l.entries (run.server i) (run.session i) = run.entries l :=
    (h.registries i).entries (h.kind i) l
  rw [← hentries] at hpage ⊢
  obtain ⟨members, next, -, hroute, hmembers, hmembers', rfl⟩ := exists_route_pageAt
    ((h.registries i).enabled henabled) (h.texts i).cacheScope hcursor hlt
    (h.request i cursor).cursor hpage
  rw [ask, reply_listing (h.reaches i cursor), hroute]
  simp only [replyOf, Except.toOption, bind_some, readPage_result hmembers hmembers', map_some]
  split <;> rfl

theorem Steady.serves (h : run.Steady l) (henabled : l.Enabled (run.server 0))
    (hmemory : (run.entries l).length * 8 < sizeModulus) :
    Paging.Serves (run.ask l) (run.Rest l) where
  answer := by
    rintro i cursor items ⟨offset, hcursor, hle, hitems⟩
    have hlt : offset + 100 < sizeModulus := by
      simp only [sizeModulus] at hmemory ⊢
      omega
    have hlength : items.length = (run.entries l).length - offset := by
      rw [← length_drop, hitems, length_map]
    have hask := h.ask_eq henabled hlt hcursor (by rw [hitems, ← map_take]) i
    refine ⟨_, _, _, items.drop 100, hask, (take_append_drop 100 items).symm, ?_⟩
    by_cases hmore : offset + 100 < (run.entries l).length
    · rw [if_pos hmore]
      refine ⟨⟨offset + 100, .inr rfl, hmore.le, ?_⟩, ?_⟩
      · rw [map_drop, ← hitems, drop_drop]
      · rw [length_drop]
        omega
    · rw [if_neg hmore]
      exact drop_eq_nil_of_le (by omega)

/-- Following the cursors reads every entry of the registry, once and in order, with no more
requests than there are entries and one more. -/
theorem Steady.follow (h : run.Steady l) (henabled : l.Enabled (run.server 0))
    (hmemory : (run.entries l).length * 8 < sizeModulus) :
    ∃ items, run.entries l = items.map some ∧
      ∀ fuel, items.length < fuel → Paging.follow (run.ask l) fuel 0 none = some items := by
  obtain ⟨items, hitems⟩ := exists_eq_map_some ((h.texts 0).isSome_entries l (run.session 0))
  refine ⟨items, hitems, fun fuel hfuel => ?_⟩
  exact Paging.follow_eq (h.serves henabled hmemory)
    ⟨0, .inl ⟨rfl, rfl⟩, Nat.zero_le _, hitems⟩ hfuel

end ListingRun

end Mcpkit
