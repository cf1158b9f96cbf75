import Mcpkit.Json.Scanner
import Mcpkit.Transport.Http

/-!
# Content security policies

A policy has a source text for each of four directives.  `mcp_csp_serialize`
joins the directives that have one with semicolons, and whoever enforces the
policy splits the text at the semicolons again.

The texts are not looked at.  A semicolon in one of them ends its directive
early, and what stands behind it is read as another directive.
-/

namespace Mcpkit.Apps

open Json Transport List Function

def kDirectives : Fin 4 → Bytes
  | 0 => text "default-src"
  | 1 => text "script-src"
  | 2 => text "style-src"
  | 3 => text "connect-src"

structure Csp where
  sources : Fin 4 → Option Bytes

def mcpCspDefaultDenyNew : Csp := ⟨fun i => if i = 0 then some "'none'" else none⟩

/-- An empty text removes the sources. -/
def given (sources : Option Bytes) : Option Bytes := if sources = some [] then none else sources

/-- `mcp_csp_set` of a C string, or nothing for an unknown directive. -/
def mcpCspSet (csp : Csp) (directive : Bytes) (sources : Option Bytes) : Option Csp :=
  ((finRange 4).find? (kDirectives · = directive)).map fun idx =>
    ⟨update csp.sources idx (given sources)⟩

def sets (csp : Csp) (calls : List (Bytes × Option Bytes)) : Option Csp :=
  calls.foldlM (fun csp call => mcpCspSet csp call.1 call.2) csp

def directives (sources : Fin 4 → Option Bytes) : List (Bytes × Bytes) :=
  (finRange 4).filterMap fun i => (sources i).map (kDirectives i, ·)

def line (d : Bytes × Bytes) : Bytes := d.1 ++ 0x20 :: d.2

/-- One round of the loop of `mcp_csp_serialize`, for a directive that has sources. -/
def serializeStep (buf : Bytes) (d : Bytes × Bytes) : Bytes :=
  (if buf = [] then buf else buf ++ text "; ") ++ line d

def mcpCspSerialize (csp : Csp) : Bytes := (directives csp.sources).foldl serializeStep []

/-- Blanks, a name and, behind another blank, the sources. -/
def readDirective (part : Bytes) : Bytes × Bytes :=
  let part := part.dropWhile (· = 0x20)
  (part.takeWhile (· ≠ 0x20), (part.dropWhile (· ≠ 0x20)).drop 1)

def readPolicy (s : Bytes) : List (Bytes × Bytes) :=
  ((s.splitOn 0x3B).map readDirective).filter (·.1 ≠ [])

/-- The sources that the last call for a directive has set. -/
def lastSet (calls : List (Bytes × Option Bytes)) (csp : Csp) (i : Fin 4) : Option Bytes :=
  calls.foldl (fun v call => if call.1 = kDirectives i then given call.2 else v) (csp.sources i)

variable {calls : List (Bytes × Option Bytes)} {csp csp' : Csp} {d : Bytes × Bytes}
  {s part : Bytes}

theorem sources_sets (h : sets csp calls = some csp') (i : Fin 4) :
    csp'.sources i = lastSet calls csp i := by
  induction calls generalizing csp with
  | nil =>
    cases h
    rfl
  | cons call calls ih =>
    obtain ⟨csp₁, hset, hrest⟩ := Option.bind_eq_some_iff.mp h
    obtain ⟨idx, hfind, rfl⟩ := Option.map_eq_some_iff.mp hset
    have hname : kDirectives idx = call.1 := by simpa using find?_some hfind
    have hinj : ∀ i j, kDirectives i = kDirectives j → i = j := by decide
    rw [ih hrest, lastSet, lastSet, foldl_cons, ← hname]
    congr 1
    dsimp only
    by_cases hi : i = idx
    · rw [hi, update_self, if_pos rfl]
    · rw [update_of_ne hi, if_neg fun heq => hi (hinj _ _ heq.symm)]

theorem foldl_serializeStep {buf : Bytes} (hbuf : buf ≠ []) (ds : List (Bytes × Bytes)) :
    ds.foldl serializeStep buf = [0x3B].intercalate (buf :: ds.map (0x20 :: line ·)) := by
  have happend : ∀ (a b : Bytes) ls, [0x3B].intercalate ((a ++ b) :: ls) =
      a ++ [0x3B].intercalate (b :: ls) := by
    intro a b ls
    cases ls <;> simp
  induction ds generalizing buf with
  | nil => simp
  | cons d ds ih =>
    rw [foldl_cons, ih (by simp [serializeStep, line]), serializeStep, if_neg hbuf, append_assoc,
      show text "; " ++ line d = [0x3B] ++ 0x20 :: line d from rfl, happend, happend, map_cons,
      intercalate_cons_cons, append_assoc]

theorem readDirective_line (hne : d.1 ≠ []) (hblank : 0x20 ∉ d.1) :
    readDirective (line d) = d ∧ readDirective (0x20 :: line d) = d := by
  have hall : ∀ c ∈ d.1, decide (c ≠ 0x20) = true :=
    fun c hc => decide_eq_true fun heq => hblank (heq ▸ hc)
  have hhead : HeadIs (fun c => !decide (c ≠ 0x20)) (0x20 :: d.2) := headIs_cons.mpr rfl
  have hdrop : (line d).dropWhile (· = 0x20) = line d := by
    obtain ⟨c, k, hd⟩ := exists_cons_of_ne_nil hne
    rw [line, hd, cons_append, dropWhile_cons_of_neg]
    exact fun hc => hblank (by rw [hd, ← of_decide_eq_true hc]; exact mem_cons_self)
  have hread : readDirective (line d) = d := by
    rw [readDirective, hdrop, line, takeWhile_of_all hall hhead, dropWhile_of_all hall hhead]
    rfl
  refine ⟨hread, ?_⟩
  rwa [readDirective, dropWhile_cons_of_pos (by rfl)]

theorem semicolon_notMem_of_mem_splitOn (h : part ∈ s.splitOn 0x3B) : 0x3B ∉ part := by
  induction s generalizing part with
  | nil =>
    rw [mem_singleton.mp h]
    exact not_mem_nil
  | cons c s ih =>
    rw [splitOn_cons_eq_if_modifyHead] at h
    split at h
    · rcases mem_cons.mp h with rfl | htail
      · exact not_mem_nil
      · exact ih htail
    next hc =>
      cases hparts : s.splitOn 0x3B with
      | nil => exact absurd hparts (splitOn_ne_nil _ _)
      | cons first rest =>
        rw [hparts] at h ih
        rcases mem_cons.mp h with rfl | htail
        · rw [mem_cons, not_or]
          exact ⟨fun heq => hc (beq_iff_eq.mpr heq.symm), ih mem_cons_self⟩
        · exact ih (mem_cons_of_mem _ htail)

theorem readPolicy_serialize (h : ∀ i, ∀ s ∈ csp.sources i, 0x3B ∉ s) :
    readPolicy (mcpCspSerialize csp) = directives csp.sources := by
  have hname : ∀ i, kDirectives i ≠ [] ∧ 0x20 ∉ kDirectives i ∧ 0x3B ∉ kDirectives i := by decide
  have hd : ∀ d ∈ directives csp.sources, d.1 ≠ [] ∧ 0x20 ∉ d.1 ∧ 0x3B ∉ line d := by
    intro d hmem
    obtain ⟨i, -, hi⟩ := mem_filterMap.mp hmem
    obtain ⟨s, hs, rfl⟩ := Option.map_eq_some_iff.mp hi
    refine ⟨(hname i).1, (hname i).2.1, ?_⟩
    rw [line, mem_append, mem_cons, not_or, not_or]
    exact ⟨(hname i).2.2, by decide, h i s hs⟩
  rw [readPolicy, mcpCspSerialize]
  generalize directives csp.sources = ds at hd
  cases ds with
  | nil => rfl
  | cons d ds =>
    have hread := fun d hmem => readDirective_line (hd d hmem).1 (hd d hmem).2.1
    have hmap : ds.map (readDirective ∘ (0x20 :: line ·)) = ds :=
      (map_congr_left fun d hmem => (hread d (mem_cons_of_mem _ hmem)).2).trans (map_id ds)
    have hline : ∀ d ∈ ds, 0x3B ∉ 0x20 :: line d := fun d hmem =>
      not_mem_cons_of_ne_of_not_mem (by decide) (hd d (mem_cons_of_mem _ hmem)).2.2
    rw [foldl_cons, show serializeStep [] d = line d from rfl, foldl_serializeStep (by simp [line]),
      splitOn_intercalate _ (forall_mem_cons.mpr
        ⟨(hd d mem_cons_self).2.2, forall_mem_map.mpr hline⟩) (cons_ne_nil _ _),
      map_cons, map_map, (hread d mem_cons_self).1, hmap, filter_eq_self]
    exact fun d hmem => decide_eq_true (hd d hmem).1

/-- After any calls that succeed, the policy is read as the directives with the sources that were
last set, exactly if none of these has a semicolon. -/
theorem readPolicy_serialize_iff (calls : List (Bytes × Option Bytes))
    (h : sets mcpCspDefaultDenyNew calls = some csp) :
    readPolicy (mcpCspSerialize csp) = directives (lastSet calls mcpCspDefaultDenyNew) ↔
      ∀ i, ∀ s ∈ lastSet calls mcpCspDefaultDenyNew i, 0x3B ∉ s := by
  rw [← funext (sources_sets h)]
  refine ⟨fun hread i s hs hmem => ?_, readPolicy_serialize⟩
  have hd : (kDirectives i, s) ∈ readPolicy (mcpCspSerialize csp) := by
    rw [hread]
    exact mem_filterMap.mpr ⟨i, mem_finRange i, by rw [hs]; rfl⟩
  obtain ⟨part, hpart, heq⟩ := mem_map.mp (mem_filter.mp hd).1
  rw [← show (readDirective part).2 = s from congrArg Prod.snd heq] at hmem
  exact semicolon_notMem_of_mem_splitOn hpart
    ((dropWhile_sublist _).subset ((dropWhile_sublist _).subset (mem_of_mem_drop hmem)))

theorem readPolicy_serialize_self :
    ∃ csp, sets mcpCspDefaultDenyNew [("script-src", some "'self'")] = some csp ∧
      readPolicy (mcpCspSerialize csp) =
        [(text "default-src", text "'none'"), (text "script-src", text "'self'")] :=
  ⟨_, rfl, (readPolicy_serialize_iff [("script-src", some "'self'")] rfl).mpr
    (by decide +kernel)⟩

/-- A source text brings in a directive that was never set. -/
theorem readPolicy_serialize_injected :
    ∃ csp, sets mcpCspDefaultDenyNew [("script-src", some "a;style-src *")] = some csp ∧
      readPolicy (mcpCspSerialize csp) = [(text "default-src", text "'none'"),
        ("script-src", "a"), ("style-src", "*")] :=
  ⟨_, rfl, by decide +kernel⟩

end Mcpkit.Apps
