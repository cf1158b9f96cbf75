import Mcpkit.Server.Registration

/-!
# The registry of tools

Adding, removing, listing and calling a tool each search the array of tools.
They agree because no two tools of it have the same name, which adding tests and
removing keeps although it moves the last tool into the gap.
-/

namespace Mcpkit

open Json JsonValue Protocol List

variable {W : Type}

/-- A call that changes the registry; `ok` is the outcome of the `realloc` of an add. -/
inductive ToolOp (W : Type) where
  | add (ok : Bool) (tool : Tool W)
  | remove (name : CString)

def toolStep (r : Registrar W) : ToolOp W → Registrar W × Status
  | .add ok tool => mcpServerAddTool ok r tool
  | .remove name => mcpServerRemoveTool r name

structure Orderly (r : Registrar W) : Prop where
  distinct : (r.server.tools.map (·.name)).Nodup
  fits : ArrayFits r.server.tools.length r.caps.tools

variable {r : Registrar W} {srv : Server W} {s : Session} {req : Message} {name : JString}

theorem removed_names {p : Tool W → Bool} {tools : List (Tool W)} {i : Nat}
    (h : tools.findIdx? p = some i) :
    ∃ tool, p tool = true ∧
      (tools.map (·.name)).Perm (tool.name :: (tools.swapRemove i).map (·.name)) := by
  obtain ⟨hi, hp, -⟩ := findIdx?_eq_some_iff_getElem.mp h
  refine ⟨tools[i], hp, ?_⟩
  rw [← map_cons]
  exact (((swapRemove_perm hi).cons _).trans (getElem_cons_eraseIdx_perm hi)).symm.map _

theorem Orderly.toolStep (h : Orderly r) (op : ToolOp W) : Orderly (toolStep r op).1 := by
  cases op with
  | add ok tool =>
    rw [Mcpkit.toolStep, mcpServerAddTool]
    obtain ⟨status, -, heq⟩ | ⟨ncap, hroom, hany, heq⟩ :=
      addEntry_cases (·.name = tool.name) ok r.caps.tools r.server.tools tool
    · rwa [heq]
    rw [heq]
    refine ⟨?_, ?_⟩
    · rw [map_append, map_singleton, nodup_append]
      refine ⟨h.distinct, nodup_singleton _, ?_⟩
      intro a ha b hb
      obtain ⟨t, ht, rfl⟩ := mem_map.mp ha
      rw [mem_singleton.mp hb]
      simpa using any_eq_false.mp hany t ht
    · rw [length_append]
      exact h.fits.makeRoom hroom
  | remove name =>
    rw [Mcpkit.toolStep, mcpServerRemoveTool]
    split
    · exact h
    next i hi =>
      obtain ⟨tool, -, hperm⟩ := removed_names hi
      have hlength : (r.server.tools.swapRemove i).length ≤ r.server.tools.length := by
        have hlength := hperm.length_eq
        simp only [length_cons, length_map] at hlength
        omega
      exact ⟨(hperm.nodup_iff.mp h.distinct).of_cons, hlength.trans h.fits.1, h.fits.2⟩

theorem toolStep_of_not_ok {op : ToolOp W} (h : (toolStep r op).2 ≠ .ok) :
    (toolStep r op).1 = r := by
  cases op with
  | add ok tool =>
    rw [toolStep, mcpServerAddTool] at h ⊢
    obtain ⟨status, -, heq⟩ | ⟨ncap, -, -, heq⟩ :=
      addEntry_cases (·.name = tool.name) ok r.caps.tools r.server.tools tool
    · rw [heq]
    · rw [heq] at h
      exact absurd rfl h
  | remove name =>
    rw [toolStep, mcpServerRemoveTool] at h ⊢
    split at h
    · rfl
    · exact absurd rfl h

theorem Orderly.name_notMem_removed (h : Orderly r) {name : CString}
    (hok : (Mcpkit.toolStep r (.remove name)).2 = .ok) :
    ∀ t ∈ (Mcpkit.toolStep r (.remove name)).1.server.tools, t.name ≠ name := by
  rw [Mcpkit.toolStep, mcpServerRemoveTool] at hok ⊢
  split at hok
  · cases hok
  next i hi =>
    obtain ⟨tool, hname, hperm⟩ := removed_names hi
    obtain rfl : tool.name = name := by simpa using hname
    have hgone := (nodup_cons.mp (hperm.nodup_iff.mp h.distinct)).1
    intro t ht heq
    exact hgone (mem_map.mpr ⟨t, ht, heq⟩)

def AnswersUnknown (srv : Server W) (s : Session) (req : Message) : Prop :=
  ∃ m, (mcpServerDispatch srv s req).2.2 = .ok m ∧
    mcpMessageErrorText m = some (.lit "tools/call: unknown tool")

def Offers (tools : List (Tool W)) (s : Session) (name : JString) : Prop :=
  ∃ tool ∈ visibleTools tools s, tool.name = name.toCString

theorem text_replyOf_errResp (req : Message) (code : Int32) (text : String) :
    ∃ m, replyOf req (errResp req code text) = .ok m ∧
      mcpMessageErrorText m = some (.lit text) := by
  obtain ⟨m, hm, -⟩ := exists_errResp req code text
  exact ⟨m, by rw [hm, replyOf], (errorCode_errResp hm).2⟩

theorem text_replyOf_built {r : Option Message} (h : Built req ToolError r) {m : Message}
    (hm : replyOf req r = .ok m) :
    mcpMessageErrorText m ≠ some (.lit "tools/call: unknown tool") := by
  have htexts : ∀ code text, ToolError code text →
      JString.lit text ≠ "tools/call: unknown tool" := by
    rintro code text ⟨-, htext⟩
    revert htext
    revert text
    decide
  cases r with
  | none =>
    obtain ⟨m', hm', -⟩ := exists_errResp req rpcInternalError "internal error"
    rw [replyOf, hm', orNoMem] at hm
    cases hm
    rw [(errorCode_errResp hm').2]
    decide
  | some m' =>
    cases hm
    obtain hnone | ⟨code, text, herror, -, htext⟩ := h.error_cases rfl
    · rw [(mcpMessageError_of_none hnone).2]
      exact fun heq => by cases heq
    · rw [htext]
      exact fun heq => htexts code text herror (Option.some.inj heq)

theorem answersUnknown_iff (hdistinct : (srv.tools.map (·.name)).Nodup)
    (hreaches : Reaches s req "tools/call")
    (hname : getString (mcpMessageParams req) "name" = some name) :
    AnswersUnknown srv s req ↔ ¬Offers srv.tools s name := by
  obtain ⟨hkind, s', hgate⟩ := hreaches
  obtain ⟨params, hparams⟩ : ∃ params, mcpMessageParams req = some params := by
    cases hparams : mcpMessageParams req with
    | none =>
      rw [hparams] at hname
      cases hname
    | some params => exact ⟨params, rfl⟩
  rw [hparams] at hname
  obtain ⟨x₁, hx₁⟩ := srv.withShared_adoptLogLevel srv.shared req
  obtain ⟨x₂, hx₂⟩ := srv.withShared_trace x₁ (.begin "tools/call")
  have hreply : (mcpServerDispatch srv s req).2.2 = replyOf req
      (finishToolsCall (srv.withShared x₂) s' req
        (toolsCallGate ((srv.withShared x₂).withTools srv.tools) s' req)).2.2 := by
    rw [mcpServerDispatch_of_route srv hkind hgate, reply_dispatchRoute]
    change replyOf req (routeToolsCall ((adoptLogLevel (srv.withShared srv.shared).countRequest
      req).trace _) s' req).2.2 = _
    rw [hx₁, hx₂, routeToolsCall_eq]
    rfl
  have hoffers : Offers srv.tools s name ↔ Offers srv.tools s' name := by
    rw [Offers, Offers, visibleTools_congr (appsHost_of_gate hgate)]
  rw [AnswersUnknown, hreply, hoffers]
  cases hhides : hides srv.tools s' name with
  | true =>
    rw [toolsCallGate_of_hides hparams hname hhides]
    refine iff_of_true (text_replyOf_errResp req _ _) ?_
    rintro ⟨tool, htool, heq⟩
    obtain ⟨hmem, hvisible⟩ := mem_filter.mp htool
    obtain ⟨found, hfound, hhidden⟩ := (Option.any_eq_true ..).mp hhides
    have hname' : found.name = name.toCString := by simpa using find?_some hfound
    have hsame : tool = found := inj_on_of_nodup_map hdistinct hmem
      (mem_of_find?_eq_some hfound) (heq.trans hname'.symm)
    rw [hsame, hhidden] at hvisible
    cases hvisible
  | false =>
    rw [toolsCallGate_of_not_hides hparams hname hhides]
    cases hfind : (visibleTools srv.tools s').find? (·.name = name.toCString) with
    | none =>
      refine iff_of_true (text_replyOf_errResp req _ _) ?_
      rintro ⟨tool, htool, heq⟩
      exact absurd heq (by simpa using find?_eq_none.mp hfind tool htool)
    | some tool =>
      have hmem := mem_of_find?_eq_some hfind
      have hvisible : toolHidden tool s' = false := by simpa using (mem_filter.mp hmem).2
      refine iff_of_false ?_ (not_not.mpr ⟨tool, hmem, by simpa using find?_some hfind⟩)
      rintro ⟨m, hm, htext⟩
      exact text_replyOf_built (.finishToolsCall _ hvisible params) hm htext

theorem objectGet_name_toolEntry {t : Tool W} {e : JsonValue} (hname : t.name.Printable)
    (hdescription : ∀ d ∈ t.description, d.Printable) (h : toolEntry t = some e) :
    e.objectGet "name" = some (.string hname.text) := by
  have hrest := (Extends.setStringOpt "description" hdescription).bind <|
    (Extends.setOptional "inputSchema" (t.schema.map clone)).bind <|
    (Extends.setOptional "outputSchema" (t.outputSchema.map clone)).bind <|
    Extends.setOptional "_meta" (t.metaObj.map clone)
  obtain ⟨members, heq, hlookup⟩ := hrest [("name", .string hname.text)]
  have hentry : toolEntry t = some (.object members) := by
    rwa [toolEntry, setString, newString_of_printable hname]
  cases hentry.symm.trans h
  exact hlookup _ (by decide)

/-- The session reads the tool in its list. -/
def Lists (items : List JsonValue) (name : JString) : Prop :=
  ∃ e ∈ items, e.objectGet "name" = some (.string name)

theorem lists_iff (htexts : ValidTexts srv) {items : List JsonValue}
    (hitems : Listing.entries srv s .tools = items.map some) :
    Lists items name ↔ Offers srv.tools s name := by
  have hget : ∀ t ∈ visibleTools srv.tools s, ∀ e, toolEntry t = some e →
      (e.objectGet "name" = some (.string name) ↔ t.name = name.toCString) := by
    intro t ht e he
    obtain ⟨hname, hdescription⟩ := htexts.tools t (mem_of_mem_filter ht)
    rw [objectGet_name_toolEntry hname hdescription he]
    constructor
    · intro heq
      cases heq
      rfl
    · intro heq
      have htext : hname.text = name := JString.ext (congrArg CString.bytes heq)
      rw [htext]
  constructor
  · rintro ⟨e, he, hname⟩
    have hmem : some e ∈ Listing.entries srv s .tools := hitems ▸ mem_map_of_mem he
    obtain ⟨t, ht, hentry⟩ := mem_map.mp hmem
    exact ⟨t, ht, (hget t ht e hentry).mp hname⟩
  rintro ⟨t, ht, hname⟩
  have hmem : toolEntry t ∈ items.map some := hitems ▸ mem_map_of_mem ht
  obtain ⟨e, he, hentry⟩ := mem_map.mp hmem
  exact ⟨e, he, (hget t ht e hentry.symm).mpr hname⟩

/-- `P` holds of every name, of whether a session reads it in the pages of its list, and of whether
its calls of that name get past the test for unknown tools. -/
def SessionsSee (tools : List (Tool W)) (P : JString → Prop → Prop → Prop) : Prop :=
  ∀ run : ListingRun W, (run.server 0).tools = tools → run.Steady .tools →
    ∃ items,
      (∀ fuel, items.length < fuel → Paging.follow (run.ask .tools) fuel 0 none = some items) ∧
      ∀ srv s req name, srv.tools = tools → s.appsHost = (run.session 0).appsHost →
        Reaches s req "tools/call" → getString (mcpMessageParams req) "name" = some name →
        P name (Lists items name) (¬AnswersUnknown srv s req)

theorem Orderly.sessionsSee (h : Orderly r) {P : JString → Prop → Prop → Prop}
    (hP : ∀ s name, P name (Offers r.server.tools s name) (Offers r.server.tools s name)) :
    SessionsSee r.server.tools P := by
  intro run htools hsteady
  have hmemory : (run.entries .tools).length * 8 < sizeModulus := by
    obtain ⟨hle, hcap⟩ := h.fits
    have hvisible : (visibleTools r.server.tools (run.session 0)).length ≤ r.server.tools.length :=
      length_filter_le _ _
    rw [ListingRun.entries, Listing.entries, length_map, htools]
    omega
  obtain ⟨items, hitems, hfollow⟩ := hsteady.follow trivial hmemory
  refine ⟨items, hfollow, fun srv s req name hsrv hkind hreaches hname => ?_⟩
  have hdistinct : (srv.tools.map (·.name)).Nodup := by
    rw [hsrv]
    exact h.distinct
  have hoffers : Offers (run.server 0).tools (run.session 0) name = Offers srv.tools s name := by
    rw [htools, hsrv, Offers, Offers, visibleTools_congr hkind]
  rw [answersUnknown_iff hdistinct hreaches hname, not_not, lists_iff (hsteady.texts 0) hitems,
    hoffers, hsrv]
  exact hP s name

/-- After any calls that add and remove tools, the names are distinct, and a session lists a name
exactly if it is not answered as unknown.  A further call that fails changes nothing, and a tool
that it removes is neither listed nor called. -/
theorem toolRegistry_coherent (world : W) (name version : CString) (ops : List (ToolOp W)) :
    let r := Machine.exec toolStep (Registrar.create world name version) ops
    (r.server.tools.map (·.name)).Nodup ∧
      SessionsSee r.server.tools (fun _ listed called => listed ↔ called) ∧
      ∀ op, ((toolStep r op).2 ≠ .ok → (toolStep r op).1.server = r.server) ∧
        ∀ removed, op = .remove removed → (toolStep r op).2 = .ok →
          SessionsSee (toolStep r op).1.server.tools fun name listed called =>
            name.toCString = removed → ¬listed ∧ ¬called := by
  intro r
  have hstart : Orderly (Registrar.create world name version) :=
    ⟨nodup_nil, Nat.le_refl _, show 0 * 8 < sizeModulus by decide⟩
  have horderly : Orderly r := Machine.exec_invariant (fun _ op h => h.toolStep op) hstart ops
  refine ⟨horderly.distinct, horderly.sessionsSee fun _ _ => Iff.rfl, fun op => ⟨fun h => ?_, ?_⟩⟩
  · rw [toolStep_of_not_ok h]
  rintro removed rfl hok
  refine (horderly.toolStep _).sessionsSee ?_
  rintro s name rfl
  have hgone : ¬Offers (toolStep r (.remove name.toCString)).1.server.tools s name := by
    rintro ⟨t, ht, heq⟩
    exact horderly.name_notMem_removed hok t (mem_of_mem_filter ht) heq
  exact ⟨hgone, hgone⟩

end Mcpkit
