import Mathlib.Data.List.DropRight
import Mcpkit.Json.Value
import Mcpkit.Lib.Base64

/-!
# The text encoding of the state tokens

`b64url_encode` and `b64url_decode`.  The encoder writes the sextets of the
data with the URL-safe alphabet; the decoder reads both alphabets and collects
bits in a 32-bit accumulator, of which only the bits not yet written matter.
-/

namespace Mcpkit.Protocol

open Json List UInt8

def kB64urlChars : Bytes :=
  (JString.lit "ABCDEFGHIJKLMNOPQRSTUVWXYZabcdefghijklmnopqrstuvwxyz0123456789-_").bytes

def b64urlChar (v : Nat) : UInt8 := kB64urlChars.getD (v % 64) 0

/-- `b64url_char_val`: `-2` for padding, `-1` for a character outside the alphabets. -/
def b64urlCharVal (c : UInt8) : Int :=
  if 0x41 ≤ c ∧ c ≤ 0x5A then c.toNat - 0x41
  else if 0x61 ≤ c ∧ c ≤ 0x7A then c.toNat - 0x61 + 26
  else if 0x30 ≤ c ∧ c ≤ 0x39 then c.toNat - 0x30 + 52
  else if c = 0x2D ∨ c = 0x2B then 62
  else if c = 0x5F ∨ c = 0x2F then 63
  else if c = 0x3D then -2
  else -1

def b64urlEncode : Bytes → Bytes
  | a :: b :: c :: rest =>
    let v := a.toNat * 65536 + b.toNat * 256 + c.toNat
    b64urlChar (v / 262144) :: b64urlChar (v / 4096) :: b64urlChar (v / 64) :: b64urlChar v ::
      b64urlEncode rest
  | [a, b] =>
    let v := a.toNat * 65536 + b.toNat * 256
    [b64urlChar (v / 262144), b64urlChar (v / 4096), b64urlChar (v / 64)]
  | [a] =>
    let v := a.toNat * 65536
    [b64urlChar (v / 262144), b64urlChar (v / 4096)]
  | [] => []

/-- The end of `b64url_decode`: no sextet is left over, and the bits not written are zero. -/
def b64urlFinish (val bits : Nat) (out : Bytes) : Option Bytes :=
  if 6 ≤ bits ∨ (0 < bits ∧ val % 2 ^ bits ≠ 0) then none else some out

def b64urlDecodeLoop : Bytes → Nat → Nat → Bytes → Option Bytes
  | [], val, bits, out => b64urlFinish val bits out
  | c :: cs, val, bits, out =>
    let v := b64urlCharVal c
    if v = -2 then
      if cs.all (· = 0x3D) then b64urlFinish val bits out else none
    else if v < 0 then none
    else
      let val := (val * 64 + v.toNat) % 4294967296
      if 8 ≤ bits + 6 then
        b64urlDecodeLoop cs val (bits + 6 - 8)
          (out ++ [ofNat (val / 2 ^ (bits + 6 - 8))])
      else b64urlDecodeLoop cs val (bits + 6) out

def b64urlDecode (s : Bytes) : Option Bytes := b64urlDecodeLoop s 0 0 []

theorem b64urlChar_mod (v : Nat) : b64urlChar (v % 64) = b64urlChar v := by
  rw [b64urlChar, b64urlChar, Nat.mod_mod]

theorem b64urlEncode_eq (d : Bytes) : b64urlEncode d = (Base64.sextets d).map b64urlChar := by
  induction d using Base64.sextets.induct with
  | case1 a b c rest ih => simp [b64urlEncode, Base64.sextets, b64urlChar_mod, ih]
  | case2 a b => simp [b64urlEncode, Base64.sextets, b64urlChar_mod]
  | case3 a => simp [b64urlEncode, Base64.sextets, b64urlChar_mod]
  | case4 => rfl

theorem b64urlChar_ne (v : Nat) : b64urlChar v ≠ 0x2E ∧ b64urlChar v ≠ 0 := by
  have htable : ∀ v < 64, b64urlChar v ≠ 0x2E ∧ b64urlChar v ≠ 0 := by decide +kernel
  rw [← b64urlChar_mod]
  exact htable (v % 64) (Nat.mod_lt v (by decide))

theorem ne_of_mem_b64urlEncode {d : Bytes} {c : UInt8} (h : c ∈ b64urlEncode d) :
    c ≠ 0x2E ∧ c ≠ 0 := by
  rw [b64urlEncode_eq] at h
  obtain ⟨v, -, rfl⟩ := mem_map.mp h
  exact b64urlChar_ne v

/-- The sextet that a character of either alphabet stands for. -/
def sextet (c : UInt8) : Nat := (b64urlCharVal c).toNat

/-- The URL-safe character that stands for the same sextet. -/
def urlSafe (c : UInt8) : UInt8 := if c = 0x2B then 0x2D else if c = 0x2F then 0x5F else c

theorem b64urlCharVal_spec : ∀ c : UInt8,
    (0 ≤ b64urlCharVal c ↔ c ∈ kB64urlChars ++ [0x2B, 0x2F]) ∧ sextet c < 64 ∧
      (0 ≤ b64urlCharVal c → sextet c = kB64urlChars.idxOf (urlSafe c) ∧
        b64urlChar (sextet c) = urlSafe c) ∧ (b64urlCharVal c = -2 → c = 0x3D) :=
  Utf8.forall_byte (by decide +kernel)

theorem sextet_b64urlChar : ∀ v < 64, 0 ≤ b64urlCharVal (b64urlChar v) ∧
    sextet (b64urlChar v) = v := by
  decide +kernel

def pushed (val v : Nat) : Nat := (val * 64 + v) % 4294967296

theorem pushed_mod (val : Nat) (c : UInt8) : pushed val (sextet c) % 64 = sextet c := by
  have := (b64urlCharVal_spec c).2.1
  unfold pushed
  omega

theorem byte_pushed {val p q : Nat} (hval : val % 64 = p) {unused : Nat}
    (hunused : unused = 16 ∨ unused = 4 ∨ unused = 1) :
    ofNat (pushed val q / unused) = Base64.joined p q unused := by
  refine UInt8.toNat_inj.mp ?_
  rw [Base64.joined, UInt8.toNat_ofNat', UInt8.toNat_ofNat', pushed]
  obtain rfl | rfl | rfl := hunused <;> omega

section Turns

variable {c : UInt8} (hc : 0 ≤ b64urlCharVal c) (cs : Bytes) (val : Nat) (out : Bytes)

include hc

private theorem loop_cons (bits : Nat) :
    b64urlDecodeLoop (c :: cs) val bits out =
      if 8 ≤ bits + 6 then
        b64urlDecodeLoop cs (pushed val (sextet c)) (bits + 6 - 8)
          (out ++ [ofNat (pushed val (sextet c) / 2 ^ (bits + 6 - 8))])
      else b64urlDecodeLoop cs (pushed val (sextet c)) (bits + 6) out := by
  have hpad : b64urlCharVal c ≠ -2 := by omega
  simp only [b64urlDecodeLoop, if_neg hpad, if_neg (Int.not_lt.mpr hc), pushed, sextet]

theorem loop_first : b64urlDecodeLoop (c :: cs) val 0 out =
    b64urlDecodeLoop cs (pushed val (sextet c)) 6 out :=
  loop_cons hc cs val out 0

variable {p : Nat} (hval : val % 64 = p)

include hval

theorem loop_second : b64urlDecodeLoop (c :: cs) val 6 out =
    b64urlDecodeLoop cs (pushed val (sextet c)) 4 (out ++ [Base64.joined p (sextet c) 16]) := by
  rw [← byte_pushed hval (.inl rfl)]
  exact loop_cons hc cs val out 6

theorem loop_third : b64urlDecodeLoop (c :: cs) val 4 out =
    b64urlDecodeLoop cs (pushed val (sextet c)) 2 (out ++ [Base64.joined p (sextet c) 4]) := by
  rw [← byte_pushed hval (.inr (.inl rfl))]
  exact loop_cons hc cs val out 4

theorem loop_fourth : b64urlDecodeLoop (c :: cs) val 2 out =
    b64urlDecodeLoop cs (pushed val (sextet c)) 0 (out ++ [Base64.joined p (sextet c) 1]) := by
  rw [← byte_pushed hval (.inr (.inr rfl))]
  exact loop_cons hc cs val out 2

end Turns

theorem loop_nil (c : UInt8) (val : Nat) (out : Bytes) {bits n : Nat}
    (hbits : bits = 4 ∧ n = 16 ∨ bits = 2 ∧ n = 4) :
    b64urlDecodeLoop [] (pushed val (sextet c)) bits out =
      if sextet c % n = 0 then some out else none := by
  have hmod := pushed_mod val c
  rw [b64urlDecodeLoop, b64urlFinish]
  obtain ⟨rfl, rfl⟩ | ⟨rfl, rfl⟩ := hbits <;> split_ifs <;> first | rfl | omega

theorem loop_sextets : ∀ (cs : Bytes), (∀ c ∈ cs, 0 ≤ b64urlCharVal c) → ∀ (val : Nat)
    (out : Bytes), b64urlDecodeLoop cs val 0 out = (Base64.bytes (cs.map sextet)).map (out ++ ·)
  | [], _, val, out => by simp [b64urlDecodeLoop, b64urlFinish, Base64.bytes]
  | [p], h, val, out => by
    rw [loop_first (h p (by simp))]
    rfl
  | [p, q], h, val, out => by
    simp only [map_cons, map_nil]
    rw [loop_first (h p (by simp)), loop_second (h q (by simp)) _ _ _ (pushed_mod val p),
      loop_nil q _ _ (.inl ⟨rfl, rfl⟩), Base64.bytes]
    split_ifs <;> rfl
  | [p, q, r], h, val, out => by
    simp only [map_cons, map_nil]
    rw [loop_first (h p (by simp)), loop_second (h q (by simp)) _ _ _ (pushed_mod val p),
      loop_third (h r (by simp)) _ _ _ (pushed_mod _ q), loop_nil r _ _ (.inr ⟨rfl, rfl⟩),
      Base64.bytes]
    split_ifs
    · rw [append_assoc]
      rfl
    · rfl
  | p :: q :: r :: s :: rest, h, val, out => by
    have hrest : ∀ q ∈ rest, 0 ≤ b64urlCharVal q := fun q hq => h q (by simp [hq])
    simp only [map_cons]
    rw [loop_first (h p (by simp)), loop_second (h q (by simp)) _ _ _ (pushed_mod val p),
      loop_third (h r (by simp)) _ _ _ (pushed_mod _ q),
      loop_fourth (h s (by simp)) _ _ _ (pushed_mod _ r), loop_sextets rest hrest, Base64.bytes,
      Option.map_map]
    simp [Function.comp_def]

variable {t : Bytes}

theorem b64urlDecode_eq (ht : ∀ c ∈ t, 0 ≤ b64urlCharVal c) :
    b64urlDecode t = Base64.bytes (t.map sextet) := by
  rw [b64urlDecode, loop_sextets t ht]
  exact Option.map_id'

theorem b64urlDecode_b64urlEncode (d : Bytes) : b64urlDecode (b64urlEncode d) = some d := by
  have hread (q : Nat) (hq : q ∈ Base64.sextets d) :=
    sextet_b64urlChar q (Base64.lt_of_mem_sextets hq)
  have hid : (Base64.sextets d).map (sextet ∘ b64urlChar) = Base64.sextets d :=
    (map_congr_left fun q hq => (hread q hq).2).trans (map_id _)
  rw [b64urlEncode_eq, b64urlDecode_eq (forall_mem_map.mpr fun q hq => (hread q hq).1), map_map,
    hid, Base64.bytes_sextets]

def unpadded (s : Bytes) : Bytes := s.rdropWhile (· == 0x3D)

/-- What the decoder accepts, without the padding: characters of the alphabets, no single one left
over, and no bit set that belongs to no byte. -/
def Canonical (t : Bytes) : Prop :=
  (∀ c ∈ t, c ∈ kB64urlChars ++ [0x2B, 0x2F]) ∧ t.length % 4 ≠ 1 ∧
    kB64urlChars.idxOf (urlSafe (t.getLastD 0x41)) % Base64.unused t.length = 0

theorem loop_padding (ht : ∀ h : t ≠ [], t.getLast h ≠ 0x3D) (n val bits : Nat) (out : Bytes) :
    b64urlDecodeLoop (t ++ replicate n 0x3D) val bits out =
      if t.all (0 ≤ b64urlCharVal ·) then b64urlDecodeLoop t val bits out else none := by
  induction t generalizing val bits out with
  | nil => cases n <;> simp [b64urlDecodeLoop, replicate_succ, b64urlCharVal]
  | cons c cs ih =>
    have hcs (h : cs ≠ []) : cs.getLast h ≠ 0x3D := getLast_cons h ▸ ht (cons_ne_nil c cs)
    by_cases hc : 0 ≤ b64urlCharVal c
    · simp only [cons_append, loop_cons hc, ih hcs, all_cons, hc, decide_true, Bool.true_and]
      split_ifs <;> rfl
    rw [all_cons, decide_eq_false hc, Bool.false_and, if_neg Bool.false_ne_true, cons_append,
      b64urlDecodeLoop]
    split
    next hpad =>
      -- a character other than the padding follows
      refine if_neg fun hall => ht (cons_ne_nil c cs) ?_
      simp only [all_append, Bool.and_eq_true, all_eq_true, decide_eq_true_eq] at hall
      obtain h | h := mem_cons.mp (getLast_mem (cons_ne_nil c cs))
      · rw [h, (b64urlCharVal_spec c).2.2.2 hpad]
      · exact hall.1 _ h
    next => exact if_pos (Int.not_le.mp hc)

theorem b64urlDecode_unpadded (s : Bytes) : b64urlDecode s =
    if (unpadded s).all (0 ≤ b64urlCharVal ·) then Base64.bytes ((unpadded s).map sextet)
    else none := by
  have hs : unpadded s ++ replicate (s.rtakeWhile (· == 0x3D)).length 0x3D = s := by
    rw [← eq_replicate_of_mem fun c hc => eq_of_beq (mem_rtakeWhile_imp (p := (· == 0x3D)) hc)]
    exact rdropWhile_append_rtakeWhile
  have hlast (h : unpadded s ≠ []) : (unpadded s).getLast h ≠ 0x3D :=
    fun he => rdropWhile_last_not _ _ h (beq_iff_eq.mpr he)
  conv_lhs => rw [← hs, b64urlDecode, loop_padding hlast]
  split
  next ht => exact b64urlDecode_eq (by simpa using ht)
  next => rfl

theorem canonical_iff (ht : ∀ c ∈ t, 0 ≤ b64urlCharVal c) :
    Canonical t ↔ (Base64.bytes (t.map sextet)).isSome := by
  have hmem : ∀ c ∈ t, c ∈ kB64urlChars ++ [0x2B, 0x2F] :=
    fun c hc => (b64urlCharVal_spec c).1.mp (ht c hc)
  have hlast : 0 ≤ b64urlCharVal (t.getLastD 0x41) := by
    obtain h | h := mem_cons.mp (getLastD_mem_cons (l := t) (a := 0x41))
    · rw [h]
      decide
    · exact ht _ h
  have hget : (t.map sextet).getLastD 0 = sextet (t.getLastD 0x41) := by
    cases t using reverseRecOn <;> simp [sextet, b64urlCharVal]
  rw [Base64.isSome_bytes, length_map, hget, ((b64urlCharVal_spec _).2.2.1 hlast).1]
  exact and_iff_right hmem

/-- The decoder inverts the encoder.  It accepts exactly the canonical texts, and the encoding of
what it reads is the text in the URL-safe alphabet. -/
theorem b64urlDecode_spec :
    (∀ d, b64urlDecode (b64urlEncode d) = some d) ∧
      ∀ s, ((b64urlDecode s).isSome ↔ Canonical (unpadded s)) ∧
        ∀ d ∈ b64urlDecode s, b64urlEncode d = (unpadded s).map urlSafe := by
  refine ⟨b64urlDecode_b64urlEncode, fun s => ?_⟩
  simp only [b64urlDecode_unpadded, all_eq_true, decide_eq_true_eq]
  generalize unpadded s = t
  by_cases ht : ∀ c ∈ t, 0 ≤ b64urlCharVal c
  · rw [if_pos ht, canonical_iff ht]
    refine ⟨Iff.rfl, fun d hd => ?_⟩
    have hlt : ∀ q ∈ t.map sextet, q < 64 :=
      forall_mem_map.mpr fun c _ => (b64urlCharVal_spec c).2.1
    rw [b64urlEncode_eq, Base64.sextets_of_mem_bytes hlt hd, map_map]
    exact map_congr_left fun c hc => ((b64urlCharVal_spec c).2.2.1 (ht c hc)).2
  · have hnot : ¬Canonical t := fun h => ht fun c hc => (b64urlCharVal_spec c).1.mpr (h.1 c hc)
    simp [if_neg ht, hnot]

end Mcpkit.Protocol
