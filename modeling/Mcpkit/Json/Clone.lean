import Mcpkit.Json.Acceptance

/-!
# Copies of values

`mcp_json_clone` rebuilds an object key by key, so that a copy has distinct keys
whatever it was made from.  A value that has distinct keys already, as every
value built by the public constructors and every parsed value has, is copied as
it is.
-/

namespace Mcpkit.Json.JsonValue

open List Assoc

variable {ms : MemberList} {vs : List JsonValue} {k : JString}

variable {v : JsonValue} {p : JString × JsonValue}

theorem distinctKeys_of_mem (h : DistinctKeysMembers ms) (hp : p ∈ ms) : DistinctKeys p.2 := by
  induction ms with
  | nil => cases hp
  | cons q ms ih =>
    obtain rfl | hp := mem_cons.mp hp
    · exact h.1
    · exact ih h.2 hp

theorem depth_le_of_mem (h : v ∈ vs) : v.depth ≤ depthItems vs := by
  induction vs with
  | nil => cases h
  | cons w vs ih =>
    rw [depthItems]
    obtain rfl | h := mem_cons.mp h
    · exact le_max_left _ _
    · exact (ih h).trans (le_max_right _ _)

theorem depth_le_of_mem_members (h : p ∈ ms) : p.2.depth ≤ depthMembers ms := by
  induction ms with
  | nil => cases h
  | cons q ms ih =>
    rw [depthMembers]
    obtain rfl | h := mem_cons.mp h
    · exact le_max_left _ _
    · exact (ih h).trans (le_max_right _ _)

theorem depth_lt_of_getElem {i : Nat} (h : vs[i]? = some v) : v.depth < (array vs).depth :=
  Nat.lt_succ_of_le (depth_le_of_mem (mem_of_getElem? h))

theorem depth_lt_of_lookup (h : ms.lookup k = some v) : v.depth < (object ms).depth :=
  Nat.lt_succ_of_le (depth_le_of_mem_members (mem_of_lookup h))

theorem distinctKeys_of_mem_items (h : DistinctKeysItems vs) (hv : v ∈ vs) : DistinctKeys v := by
  induction vs with
  | nil => cases hv
  | cons w vs ih =>
    obtain rfl | hv := mem_cons.mp hv
    · exact h.1
    · exact ih h.2 hv

theorem DistinctKeys.getElem (h : DistinctKeys (array vs)) {i : Nat} (hv : vs[i]? = some v) :
    DistinctKeys v :=
  distinctKeys_of_mem_items h (mem_of_getElem? hv)

theorem DistinctKeys.lookup (h : DistinctKeys (object ms)) (hv : ms.lookup k = some v) :
    DistinctKeys v :=
  distinctKeys_of_mem h.2 (mem_of_lookup hv)

theorem depth_lt_of_objectGet {w : JsonValue} (h : v.objectGet k = some w) : w.depth < v.depth := by
  cases v with
  | object ms => exact depth_lt_of_lookup h
  | _ => cases h

theorem DistinctKeys.objectGet {w : JsonValue} (h : DistinctKeys v) (hw : v.objectGet k = some w) :
    DistinctKeys w := by
  cases v with
  | object ms => exact DistinctKeys.lookup h hw
  | _ => cases hw

theorem DistinctKeys.mem (h : DistinctKeys (array vs)) (hv : v ∈ vs) : DistinctKeys v := by
  obtain ⟨i, hi⟩ := getElem?_of_mem hv
  exact h.getElem hi

theorem distinctKeys_foldl_set {ps : MemberList}
    {f : JString × JsonValue → JsonValue} (hf : ∀ p ∈ ps, DistinctKeys (f p))
    (h : DistinctKeys (object ms)) :
    DistinctKeys (object (ps.foldl (fun out p => set out p.1 (f p)) ms)) := by
  induction ps generalizing ms with
  | nil => exact h
  | cons p ps ih =>
    have hp := hf p mem_cons_self
    exact ih (fun q hq => hf q (mem_cons_of_mem p hq))
      ⟨nodup_keys_set h.1 p.1 (f p), distinctKeysMembers_set h.2 p.1 hp⟩

mutual

theorem distinctKeys_clone : ∀ v : JsonValue, DistinctKeys (clone v)
  | array items => distinctKeysItems_cloneItems items
  | object members => by
    rw [clone]
    have hcopies := distinctKeysMembers_cloneMembers members
    refine distinctKeys_foldl_set (fun p hp => ?_) ⟨nodup_nil, trivial⟩
    cases hv : (cloneMembers members).lookup p.1 with
    | none => exact distinctKeys_of_mem hcopies hp
    | some v =>
      obtain ⟨_, _, hmem, -⟩ := lookup_eq_some_iff.mp hv
      exact distinctKeys_of_mem hcopies (hmem ▸ mem_append_right _ mem_cons_self)
  | null | bool _ | number _ | string _ => trivial

theorem distinctKeysItems_cloneItems : ∀ vs : List JsonValue, DistinctKeysItems (cloneItems vs)
  | [] => trivial
  | v :: vs => ⟨distinctKeys_clone v, distinctKeysItems_cloneItems vs⟩

theorem distinctKeysMembers_cloneMembers : ∀ ms : MemberList, DistinctKeysMembers (cloneMembers ms)
  | [] => trivial
  | (_, v) :: ms => ⟨distinctKeys_clone v, distinctKeysMembers_cloneMembers ms⟩

end

mutual

theorem clone_of_distinctKeys : ∀ {v : JsonValue}, DistinctKeys v → clone v = v
  | array items, h => by rw [clone, cloneItems_of_distinctKeys h]
  | object members, h => by
    rw [clone, cloneMembers_of_distinctKeys h.2]
    have hset : members.foldl
        (fun out p => Assoc.set out p.1 ((members.lookup p.1).getD p.2)) [] =
        members.foldl (fun out p => Assoc.set out p.1 p.2) [] := by
      refine foldl_ext _ _ _ fun out p hp => ?_
      rw [lookup_of_mem h.1 hp, Option.getD_some]
    have hcopy : members.foldl (fun out p => Assoc.set out p.1 p.2) [] = members :=
      foldl_set (by rw [nil_append]; exact h.1)
    rw [hset, hcopy]
  | null, _ | bool _, _ | number _, _ | string _, _ => rfl

theorem cloneItems_of_distinctKeys : ∀ {vs : List JsonValue}, DistinctKeysItems vs →
    cloneItems vs = vs
  | [], _ => rfl
  | v :: vs, h => by rw [cloneItems, clone_of_distinctKeys h.1, cloneItems_of_distinctKeys h.2]

theorem cloneMembers_of_distinctKeys : ∀ {ms : MemberList},
    DistinctKeysMembers ms → cloneMembers ms = ms
  | [], _ => rfl
  | (_, v) :: ms, h => by
    rw [cloneMembers, clone_of_distinctKeys h.1, cloneMembers_of_distinctKeys h.2]

end

theorem depthMembers_set_le (ms : MemberList) (k : JString) (v : JsonValue) :
    depthMembers (set ms k v) ≤ max (depthMembers ms) v.depth := by
  induction ms with
  | nil => simp [depthMembers]
  | cons p ms ih =>
    rw [set_cons]
    split <;> simp only [depthMembers] <;> omega

end Mcpkit.Json.JsonValue

namespace Mcpkit.Json

open JsonText

variable [Libc]

mutual

theorem build_bounded {depth : Nat} (hd : depth ≤ mcpJsonMaxDepth) :
    ∀ {t : Tree} {v : JsonValue}, build depth t = some v →
      v.DistinctKeys ∧ depth + v.depth ≤ mcpJsonMaxDepth
  | .null, _, h | .bool _, _, h => by
    cases h
    exact ⟨trivial, hd⟩
  | .number literal, _, h => by
    rw [build] at h
    split at h
    · obtain ⟨_, h⟩ := Option.dite_none_right_eq_some.mp h
      cases h
      exact ⟨trivial, hd⟩
    · cases h
  | .string body, _, h => by
    obtain ⟨cs, -, rfl⟩ := Option.map_eq_some_iff.mp h
    exact ⟨trivial, hd⟩
  | .array items, _, h => by
    rw [build] at h
    split at h
    · cases h
    · obtain ⟨vs, hvs, rfl⟩ := Option.map_eq_some_iff.mp h
      obtain ⟨hkeys, hdepth⟩ := buildItems_bounded (by omega) hvs
      exact ⟨hkeys, by rw [JsonValue.depth]; omega⟩
  | .object members, _, h => by
    rw [build] at h
    split at h
    · cases h
    · obtain ⟨ms, hms, rfl⟩ := Option.map_eq_some_iff.mp h
      have hnil : JsonValue.DistinctKeys (.object []) := ⟨List.nodup_nil, trivial⟩
      obtain ⟨hkeys, hdepth⟩ :=
        buildMembers_bounded (by omega) hnil (by rw [JsonValue.depthMembers]; omega) hms
      exact ⟨hkeys, by rw [JsonValue.depth]; omega⟩

theorem buildItems_bounded {depth : Nat} (hd : depth ≤ mcpJsonMaxDepth) :
    ∀ {ts : List Tree} {vs : List JsonValue}, buildItems depth ts = some vs →
      JsonValue.DistinctKeysItems vs ∧ depth + JsonValue.depthItems vs ≤ mcpJsonMaxDepth
  | [], _, h => by
    cases h
    exact ⟨trivial, hd⟩
  | t :: ts, _, h => by
    simp only [buildItems, Option.bind_eq_bind, Option.bind_eq_some_iff] at h
    obtain ⟨v, hv, vs, hvs, h⟩ := h
    cases h
    have hhead := build_bounded hd hv
    have htail := buildItems_bounded hd hvs
    exact ⟨⟨hhead.1, htail.1⟩, by rw [JsonValue.depthItems]; omega⟩

theorem buildMembers_bounded {depth : Nat} (hd : depth ≤ mcpJsonMaxDepth) :
    ∀ {ms : List (List Elem × Tree)} {members members' : MemberList},
      JsonValue.DistinctKeys (.object members) →
      depth + JsonValue.depthMembers members ≤ mcpJsonMaxDepth →
      buildMembers depth ms members = some members' →
      JsonValue.DistinctKeys (.object members') ∧
        depth + JsonValue.depthMembers members' ≤ mcpJsonMaxDepth
  | [], _, _, hkeys, hdepth, h => by
    cases h
    exact ⟨hkeys, hdepth⟩
  | (key, t) :: ms, members, _, hkeys, hdepth, h => by
    simp only [buildMembers, Option.bind_eq_bind, Option.bind_eq_some_iff] at h
    obtain ⟨cs, -, v, hv, h⟩ := h
    have hvalue := build_bounded hd hv
    have hset := JsonValue.depthMembers_set_le members (JString.ofChars cs) v
    exact buildMembers_bounded hd
      ⟨Assoc.nodup_keys_set hkeys.1 _ v, JsonValue.distinctKeysMembers_set hkeys.2 _ hvalue.1⟩
      (by omega) h

end

/-- A parsed value has distinct keys, a repeated key replacing the member before
it, and is nested no deeper than the parser allows. -/
theorem builtinParse_bounded {text : Bytes} {v : JsonValue} (h : builtinParse text = some v) :
    v.DistinctKeys ∧ v.depth ≤ mcpJsonMaxDepth := by
  obtain ⟨hutf8, t, ht⟩ := builtinParse_sound h
  rw [builtinParse_text hutf8 ht] at h
  simpa using build_bounded (Nat.zero_le _) h

theorem distinctKeys_builtinParse {text : Bytes} {v : JsonValue} (h : builtinParse text = some v) :
    v.DistinctKeys :=
  (builtinParse_bounded h).1

end Mcpkit.Json
