import Mcpkit.Lib.Machine
import Mcpkit.Protocol.Extensions

/-!
# The skill registry

A skill is found by its name or by its URI, whichever skill matches first.  Adding a
skill only checks that its name finds nothing.  Its URI may be the name or the URI of
an earlier skill, and a URI that is made from the name is cut to fit into an array of
256 bytes.
-/

namespace Mcpkit.Protocol.Skills

open Json List Machine Option JString

/-- The arguments of `mcp_skill_registry_add`. -/
structure SkillArgs where
  name : CString
  description : Option CString
  uri : Option CString
  frontmatter : Option JsonValue

/-- The URI that was given; an empty one counts as none. -/
def SkillArgs.givenUri (args : SkillArgs) : Option CString := args.uri.filter (·.bytes ≠ [])

def defaultUri (name : CString) : CString where
  bytes := (lit "skill://").bytes ++ name.bytes ++ (lit "/SKILL.md").bytes
  noNul := by
    simp only [mem_append, not_or]
    exact ⟨⟨(lit "skill://").noNul, name.noNul⟩, (lit "/SKILL.md").noNul⟩

/-- What `mcp_skill_registry_add` stores. -/
def SkillArgs.skill (args : SkillArgs) : Skill where
  name := args.name
  description := args.description.getD ""
  uri := args.givenUri.getD (safeCopyStr 256 (defaultUri args.name))
  frontmatter := args.frontmatter
  resources := []

def mcpSkillRegistryAdd (reg : SkillRegistry) (args : SkillArgs) : SkillRegistry × Status :=
  if args.name.bytes = [] then (reg, .invalidArgument)
  else if (mcpSkillRegistryFind reg args.name).isSome then (reg, .alreadyExists)
  else (reg ++ [args.skill], .ok)

def SkillArgs.fullUri (args : SkillArgs) : CString := args.givenUri.getD (defaultUri args.name)

/-- The registry and the skills whose addition returned `MCP_OK`. -/
structure Shelf where
  reg : SkillRegistry
  added : List SkillArgs

def Shelf.empty : Shelf := ⟨[], []⟩

def addStep (st : Shelf) (args : SkillArgs) : Shelf × Status :=
  let r := mcpSkillRegistryAdd st.reg args
  (⟨r.1, if r.2 = .ok then st.added ++ [args] else st.added⟩, r.2)

/-- Every skill that was added is found by its name and by its URI. -/
def Findable (st : Shelf) : Prop :=
  ∀ args ∈ st.added, mcpSkillRegistryFind st.reg args.name = some args.skill ∧
    mcpSkillRegistryFind st.reg args.fullUri = some args.skill

/-- The URI is stored whole, and nothing is found under it yet. -/
def Unambiguous (reg : SkillRegistry) (args : SkillArgs) : Prop :=
  (args.givenUri = none → (defaultUri args.name).bytes.length ≤ 255) ∧
    mcpSkillRegistryFind reg args.fullUri = none

def AddsUnambiguous (st : Shelf) (args : SkillArgs) : Prop :=
  (mcpSkillRegistryAdd st.reg args).2 = .ok → Unambiguous st.reg args

theorem mcpSkillRegistryFind_append (reg : SkillRegistry) (skill : Skill) (key : CString) :
    mcpSkillRegistryFind (reg ++ [skill]) key =
      (mcpSkillRegistryFind reg key).or
        (if skill.name = key ∨ skill.uri = key then some skill else none) := by
  simp [mcpSkillRegistryFind]

variable {reg : SkillRegistry} {args : SkillArgs}

theorem name_or_uri_of_find {key : CString} {skill : Skill}
    (h : mcpSkillRegistryFind reg key = some skill) : skill.name = key ∨ skill.uri = key := by
  simpa using find?_some h

theorem name_ne_of_find {name key : CString} {skill : Skill}
    (hname : mcpSkillRegistryFind reg name = none) (h : mcpSkillRegistryFind reg key = some skill) :
    skill.name ≠ name := by
  have hno := find?_eq_none.mp hname skill (mem_of_find?_eq_some h)
  simp only [Bool.or_eq_true, decide_eq_true_eq, not_or] at hno
  exact hno.1

theorem length_defaultUri (name : CString) :
    (defaultUri name).bytes.length = name.bytes.length + 17 := by
  have hbefore : (lit "skill://").bytes.length = 8 := by decide
  have hbehind : (lit "/SKILL.md").bytes.length = 9 := by decide
  simp only [defaultUri, length_append, hbefore, hbehind]
  omega

theorem name_ne_defaultUri (name : CString) : name ≠ defaultUri name := by
  intro h
  have hlength := congrArg (·.bytes.length) h
  simp only [length_defaultUri] at hlength
  omega

theorem skill_matches_fullUri_iff (args : SkillArgs) :
    (args.skill.name = args.fullUri ∨ args.skill.uri = args.fullUri) ↔
      (args.givenUri = none → (defaultUri args.name).bytes.length ≤ 255) := by
  cases h : args.givenUri with
  | some uri => simp [SkillArgs.skill, SkillArgs.fullUri, h]
  | none =>
    simp [SkillArgs.skill, SkillArgs.fullUri, h, safeCopyStr_eq_self_iff, name_ne_defaultUri]

theorem mcpSkillRegistryAdd_of_ok (h : (mcpSkillRegistryAdd reg args).2 = .ok) :
    mcpSkillRegistryFind reg args.name = none ∧
      mcpSkillRegistryAdd reg args = (reg ++ [args.skill], .ok) := by
  rw [mcpSkillRegistryAdd] at h ⊢
  split at h
  · cases h
  next hname =>
    split at h
    · cases h
    next hfind => exact ⟨by simpa using hfind, by rw [if_neg hname, if_neg hfind]⟩

theorem mcpSkillRegistryAdd_of_not_ok (h : (mcpSkillRegistryAdd reg args).2 ≠ .ok) :
    (mcpSkillRegistryAdd reg args).1 = reg := by
  rw [mcpSkillRegistryAdd] at h ⊢
  split
  · rfl
  next hname =>
    split
    · rfl
    next hfind => exact absurd (by rw [if_neg hname, if_neg hfind]) h

theorem find_new_iff (hname : mcpSkillRegistryFind reg args.name = none) :
    (mcpSkillRegistryFind (reg ++ [args.skill]) args.name = some args.skill ∧
        mcpSkillRegistryFind (reg ++ [args.skill]) args.fullUri = some args.skill) ↔
      Unambiguous reg args := by
  have hself : mcpSkillRegistryFind (reg ++ [args.skill]) args.name = some args.skill := by
    rw [mcpSkillRegistryFind_append, hname, none_or, if_pos (.inl rfl)]
  rw [and_iff_right hself, Unambiguous, ← skill_matches_fullUri_iff]
  constructor
  · intro hfind
    refine ⟨name_or_uri_of_find hfind, ?_⟩
    by_contra hsome
    obtain ⟨earlier, hearlier⟩ := ne_none_iff_exists'.mp hsome
    rw [mcpSkillRegistryFind_append, hearlier, some_or] at hfind
    exact name_ne_of_find hname hearlier (congrArg Skill.name (Option.some.inj hfind))
  · rintro ⟨hmatches, hnone⟩
    rw [mcpSkillRegistryFind_append, hnone, none_or, if_pos hmatches]

theorem findable_append {st : Shelf} (h : Findable st)
    (hname : mcpSkillRegistryFind st.reg args.name = none) :
    Findable ⟨st.reg ++ [args.skill], st.added ++ [args]⟩ ↔ Unambiguous st.reg args := by
  constructor
  · intro hall
    exact (find_new_iff hname).mp (hall args (mem_append_right _ (mem_singleton_self _)))
  intro hnew earlier hmem
  obtain hmem | hmem := mem_append.mp hmem
  · obtain ⟨hbyName, hbyUri⟩ := h earlier hmem
    dsimp only
    rw [mcpSkillRegistryFind_append, mcpSkillRegistryFind_append, hbyName, hbyUri]
    exact ⟨some_or, some_or⟩
  · rw [mem_singleton.mp hmem]
    exact (find_new_iff hname).mpr hnew

theorem findable_addStep {st : Shelf} (h : Findable st) (args : SkillArgs) :
    Findable (addStep st args).1 ↔ AddsUnambiguous st args := by
  by_cases hok : (mcpSkillRegistryAdd st.reg args).2 = .ok
  · obtain ⟨hname, hadd⟩ := mcpSkillRegistryAdd_of_ok hok
    rw [AddsUnambiguous, forall_prop_of_true hok, ← findable_append h hname, addStep, hadd]
    rfl
  have hstep : (addStep st args).1 = st := by
    simp only [addStep, mcpSkillRegistryAdd_of_not_ok hok, if_neg hok]
  rw [hstep]
  exact iff_of_true h fun hadd => absurd hadd hok

/-- Each added skill is found by its name and by its URI all along a run, exactly if each has a URI
that is stored whole and finds nothing yet. -/
theorem findable_iff_unambiguous (calls : List SkillArgs) :
    (∀ before after, calls = before ++ after → Findable (exec addStep .empty before)) ↔
      Admissible addStep AddsUnambiguous .empty calls := by
  have hempty : Findable .empty := fun _ hargs => absurd hargs not_mem_nil
  exact forall_exec_iff_admissible (I := Findable)
    (fun _ args h => findable_addStep h args) hempty

def skillArgs (name uri : String) : SkillArgs :=
  ⟨(lit name).toCString, none, some (lit uri).toCString, none⟩

/-- Two skills are added under one URI, which finds the first. -/
theorem find_sharedUri :
    outputs addStep .empty [skillArgs "a" "skill://u", skillArgs "b" "skill://u"] =
        [.ok, .ok] ∧
      (mcpSkillRegistryFind
          (exec addStep .empty [skillArgs "a" "skill://u", skillArgs "b" "skill://u"]).reg
          (skillArgs "b" "skill://u").fullUri).map (·.name) =
        some (lit "a").toCString := by
  decide +kernel

end Mcpkit.Protocol.Skills
