import Mcpkit.Json.Serializer
import Mcpkit.Lib.Decimal
import Mcpkit.Protocol.Base64Url
import Mcpkit.Protocol.Sha256

/-!
# State tokens

A server that asks its client for input hands out a token with the state it
needs to go on.  The token has four parts, separated by dots: the payload, the
issue time, the time to live, and a signature over the text of the first three.
Without a key the signature is the word `unsigned`.

A key is the bytes the caller passes; no bytes stand for no key.
-/

namespace Mcpkit.Protocol

open Json List Decimal Option Nat UInt64

/-- The word in the place of the signature of a token without one. -/
def unsignedMark : Bytes := (JString.lit "unsigned").bytes

def signatureText (key signed : Bytes) : Bytes :=
  if key ≠ [] then b64urlEncode (hmacSha256 key signed) else unsignedMark

def signedText (payload issued ttl : Bytes) : Bytes := payload ++ 0x2E :: issued ++ 0x2E :: ttl

theorem zero_notMem_signedText {payload issued ttl : Bytes} (hpayload : 0 ∉ payload)
    (hissued : 0 ∉ issued) (httl : 0 ∉ ttl) : 0 ∉ signedText payload issued ttl := by
  simp [signedText, hpayload, hissued, httl]

theorem zero_notMem_numeral (n : Nat) : 0 ∉ numeral n := by
  intro h
  exact absurd (isDigit_of_mem_numeral h) (by decide)

theorem zero_notMem_b64urlEncode (d : Bytes) : 0 ∉ b64urlEncode d := by
  intro h
  exact (ne_of_mem_b64urlEncode h).2 rfl

theorem zero_notMem_signatureText (key signed : Bytes) : 0 ∉ signatureText key signed := by
  unfold signatureText
  split
  · exact zero_notMem_b64urlEncode _
  · exact (JString.lit "unsigned").noNul

/-- The token that `mcp_mrtr_state_pack_raw_ex` builds. -/
def packedToken (data key : Bytes) (issuedAtMs ttlMs : UInt64) : CString where
  bytes :=
    let signed := signedText (b64urlEncode data) (numeral issuedAtMs.toNat)
      (numeral ttlMs.toNat)
    signed ++ 0x2E :: signatureText key signed
  noNul := by
    intro h
    obtain h | h := mem_append.mp h
    · exact zero_notMem_signedText (zero_notMem_b64urlEncode data) (zero_notMem_numeral _)
        (zero_notMem_numeral _) h
    · obtain h | h := mem_cons.mp h
      · cases h
      · exact zero_notMem_signatureText _ _ h

def mcpMrtrStatePackRawEx (data key : Bytes) (issuedAtMs ttlMs : UInt64) : Except Status CString :=
  let times := signedText [] (numeral issuedAtMs.toNat) (numeral ttlMs.toNat)
  if 64 ≤ times.length then .error .noMem else .ok (packedToken data key issuedAtMs ttlMs)

def parseUint64Loop : Bytes → UInt64 → Option UInt64
  | [], val => some val
  | c :: cs, val =>
    if c < 0x30 ∨ 0x39 < c then none
    else
      let digit := (c - 0x30).toUInt64
      if (0xFFFFFFFFFFFFFFFF - digit) / 10 < val then none
      else parseUint64Loop cs (val * 10 + digit)

def parseUint64 (s : Bytes) : Option UInt64 :=
  if s.length = 0 ∨ 20 < s.length then none else parseUint64Loop s 0

def cutAtDot (s : Bytes) : Option (Bytes × Bytes) :=
  if 0x2E ∈ s then some (s.takeWhile (· ≠ 0x2E), (s.dropWhile (· ≠ 0x2E)).drop 1) else none

structure TokenParts where
  payload : Bytes
  issued : Bytes
  ttl : Bytes
  sig : Bytes

def TokenParts.signed (p : TokenParts) : Bytes := signedText p.payload p.issued p.ttl

def tokenParts (s : Bytes) : Option TokenParts := do
  let (payload, s) ← cutAtDot s
  let (issued, s) ← cutAtDot s
  let (ttl, sig) ← cutAtDot s
  if 0x2E ∈ sig then none else some ⟨payload, issued, ttl, sig⟩

def mcpCryptoSubtleEqual (a b : Bytes) : Bool :=
  (a.zip b).foldl (fun diff p => diff ||| (p.1 ^^^ p.2)) 0 = 0

def signatureAccepted (key signed sig : Bytes) : Bool :=
  if key ≠ [] then
    if sig = unsignedMark then false
    else
      match b64urlDecode sig with
      | none => false
      | some sigBytes =>
        if sigBytes.length ≠ 32 then false
        else mcpCryptoSubtleEqual (hmacSha256 key signed) sigBytes
  else decide (sig = unsignedMark)

/-- The allowance for a clock that is behind, in milliseconds. -/
def clockSkewMs : UInt64 := 10000

/-- The test of the times; the sum is taken modulo `2 ^ 64`. -/
def checkWindow (issuedAt ttl nowMs : UInt64) : Except Status Unit :=
  if 0 < ttl then
    if nowMs < issuedAt ∧ clockSkewMs < issuedAt - nowMs then .error .invalidArgument
    else if issuedAt + ttl < nowMs then .error .timeout
    else .ok ()
  else .ok ()

def unpackPayload (payload : Bytes) : Except Status Bytes :=
  match b64urlDecode payload with
  | some data => .ok data
  | none => if 0 < payload.length then .error .invalidArgument else .ok []

def mcpMrtrStateUnpackRawEx (state : CString) (key : Bytes) (nowMs : UInt64) :
    Except Status Bytes :=
  match tokenParts state.bytes with
  | none => .error .invalidArgument
  | some p =>
    match parseUint64 p.issued, parseUint64 p.ttl with
    | some issuedAt, some ttl =>
      if !signatureAccepted key p.signed p.sig then .error .permission
      else
        match checkWindow issuedAt ttl nowMs with
        | .error st => .error st
        | .ok _ => unpackPayload p.payload
    | _, _ => .error .invalidArgument

variable {a s key : Bytes} {p : TokenParts} {v issuedAt ttl : UInt64} {state : CString}

theorem cutAtDot_append (ha : 0x2E ∉ a) (b : Bytes) : cutAtDot (a ++ 0x2E :: b) = some (a, b) := by
  have htake : ∀ c ∈ a, decide (c ≠ 0x2E) = true := by
    intro c hc
    simp only [decide_eq_true_eq]
    rintro rfl
    exact ha hc
  rw [cutAtDot, if_pos (by simp), takeWhile_append_of_pos htake, dropWhile_append_of_pos htake]
  simp

theorem eq_of_cutAtDot {b : Bytes} (h : cutAtDot s = some (a, b)) :
    s = a ++ 0x2E :: b ∧ 0x2E ∉ a := by
  unfold cutAtDot at h
  split at h
  · rename_i hmem
    cases h
    refine ⟨?_, fun hdot => by simpa using mem_takeWhile_imp hdot⟩
    have hne : s.dropWhile (· ≠ 0x2E) ≠ [] := by
      intro hnil
      simpa using dropWhile_eq_nil_iff.mp hnil 0x2E hmem
    have hhead : (s.dropWhile (· ≠ 0x2E)).head hne = 0x2E := by
      simpa using head_dropWhile_not (fun c : UInt8 => decide (c ≠ 0x2E)) hne
    have hcons := cons_head_tail hne
    rw [hhead] at hcons
    rw [drop_one, hcons, takeWhile_append_dropWhile]
  · cases h

theorem tokenParts_eq_some :
    tokenParts s = some p ↔ s = p.signed ++ 0x2E :: p.sig ∧
      0x2E ∉ p.payload ∧ 0x2E ∉ p.issued ∧ 0x2E ∉ p.ttl ∧ 0x2E ∉ p.sig := by
  constructor
  · intro h
    simp only [tokenParts, bind_eq_bind, bind_eq_some_iff, Prod.exists] at h
    obtain ⟨payload, s₁, hpayload, issued, s₂, hissued, ttl, sig, httl, hsig⟩ := h
    split at hsig
    · cases hsig
    rename_i hdot
    cases hsig
    obtain ⟨rfl, h₁⟩ := eq_of_cutAtDot hpayload
    obtain ⟨rfl, h₂⟩ := eq_of_cutAtDot hissued
    obtain ⟨rfl, h₃⟩ := eq_of_cutAtDot httl
    exact ⟨by simp [TokenParts.signed, signedText], h₁, h₂, h₃, hdot⟩
  · rintro ⟨rfl, h₁, h₂, h₃, h₄⟩
    have hassoc : p.signed ++ 0x2E :: p.sig =
        p.payload ++ 0x2E :: (p.issued ++ 0x2E :: (p.ttl ++ 0x2E :: p.sig)) := by
      simp [TokenParts.signed, signedText]
    rw [hassoc]
    simp [tokenParts, cutAtDot_append h₁, cutAtDot_append h₂, cutAtDot_append h₃, if_neg h₄]

theorem toNat_digit {c : UInt8} (h : IsDigit c) :
    (c - 0x30).toUInt64.toNat = digit c := by
  rw [UInt8.toNat_toUInt64, UInt8.toNat_sub_of_le _ _ h.1]
  rfl

theorem parseUint64Loop_eq_some {val : UInt64} :
    parseUint64Loop s val = some v ↔ (∀ c ∈ s, IsDigit c) ∧ valueFrom val.toNat s = v.toNat := by
  induction s generalizing val with
  | nil => simp [parseUint64Loop, UInt64.toNat_inj]
  | cons c s ih =>
    unfold parseUint64Loop
    by_cases hc : IsDigit c
    · have hdigit := toNat_digit hc
      have hlt := digit_lt hc
      have hval := val.toNat_lt
      have hmax : ((0xFFFFFFFFFFFFFFFF - (c - 0x30).toUInt64) / 10).toNat =
          (18446744073709551615 - digit c) / 10 := by
        rw [UInt64.toNat_div, UInt64.toNat_sub_of_le _ _ (by
          rw [le_iff_toNat_le, hdigit]
          simp only [reduceToNat]
          omega), hdigit]
        rfl
      rw [if_neg (by
        simp only [not_or, UInt8.not_lt]
        exact hc)]
      dsimp only
      by_cases hover : val.toNat * 10 + digit c < 18446744073709551616
      · have hnext : (val * 10 + (c - 0x30).toUInt64).toNat = val.toNat * 10 + digit c := by
          rw [UInt64.toNat_add, UInt64.toNat_mul, hdigit]
          simp only [reduceToNat]
          omega
        rw [if_neg (by
          rw [lt_iff_toNat_lt, hmax]
          omega), ih, hnext]
        simp [hc]
      -- the number read so far is too large, and reading on does not make it smaller
      rw [if_pos (by
        rw [lt_iff_toNat_lt, hmax]
        omega)]
      have hle := le_valueFrom (val.toNat * 10 + digit c) s
      have hv := v.toNat_lt
      simp only [reduceCtorEq, valueFrom_cons, false_iff, not_and]
      omega
    · rw [if_pos (by
        simp only [IsDigit, not_and_or, UInt8.not_le] at hc
        exact hc)]
      simp [hc]

theorem parseUint64_eq_some :
    parseUint64 s = some v ↔ s ≠ [] ∧ s.length ≤ 20 ∧ (∀ c ∈ s, IsDigit c) ∧ value s = v.toNat := by
  unfold parseUint64
  split
  · rename_i h
    simp only [reduceCtorEq, false_iff, not_and]
    intro hne hlen
    have := length_pos_iff.mpr hne
    omega
  rename_i h
  rw [parseUint64Loop_eq_some]
  have hne : s ≠ [] := fun hnil => h (.inl (by rw [hnil, length_nil]))
  have hlen : s.length ≤ 20 := by omega
  simp [hne, hlen, value]

theorem length_numeral_uint64 (n : UInt64) : (numeral n.toNat).length ≤ 20 := by
  refine length_numeral_le (by decide) ?_
  have := n.toNat_lt
  omega

theorem parseUint64_numeral (n : UInt64) : parseUint64 (numeral n.toNat) = some n :=
  parseUint64_eq_some.mpr ⟨numeral_ne_nil _, length_numeral_uint64 n,
    fun _ hc => isDigit_of_mem_numeral hc, value_numeral _⟩

private theorem foldl_or_xor (ps : List (UInt8 × UInt8)) (diff : UInt8) :
    ps.foldl (fun diff p => diff ||| (p.1 ^^^ p.2)) diff = 0 ↔ diff = 0 ∧ ∀ p ∈ ps, p.1 = p.2 := by
  induction ps generalizing diff with
  | nil => simp
  | cons p ps ih => simp [ih, and_assoc]

theorem mcpCryptoSubtleEqual_iff {b : Bytes} (h : a.length = b.length) :
    mcpCryptoSubtleEqual a b = true ↔ a = b := by
  rw [mcpCryptoSubtleEqual, decide_eq_true_eq, foldl_or_xor]
  induction a generalizing b with
  | nil => simp [length_eq_zero_iff.mp h.symm]
  | cons x a ih =>
    cases b with
    | nil => cases h
    | cons y b =>
      have hrest := ih (succ.inj h)
      simp only [true_and] at hrest
      simp only [zip_cons_cons, forall_mem_cons, hrest, true_and, List.cons.injEq]

theorem length_of_unsignedMark {d : Bytes} (h : b64urlDecode unsignedMark = some d) :
    d.length = 6 := by
  have hsix : (b64urlDecode unsignedMark).map List.length = some 6 := by decide +kernel
  rw [h] at hsix
  exact Option.some.inj hsix

theorem signatureAccepted_iff (hkey : key ≠ []) (signed sig : Bytes) :
    signatureAccepted key signed sig = true ↔ b64urlDecode sig = some (hmacSha256 key signed) := by
  unfold signatureAccepted
  rw [if_pos hkey]
  split
  · rename_i hmark
    simp only [Bool.false_eq_true, false_iff]
    intro h
    rw [hmark] at h
    have := length_of_unsignedMark h
    simp at this
  cases hdec : b64urlDecode sig with
  | none => simp
  | some sigBytes =>
    dsimp only
    split
    · rename_i hlen
      simp only [Bool.false_eq_true, false_iff, Option.some.injEq]
      rintro rfl
      simp at hlen
    rename_i hlen
    have hlen : (hmacSha256 key signed).length = sigBytes.length := by
      rw [length_hmacSha256]
      exact (not_not.mp hlen).symm
    rw [mcpCryptoSubtleEqual_iff hlen, Option.some.injEq, eq_comm]

theorem signatureAccepted_nil (signed sig : Bytes) :
    signatureAccepted [] signed sig = true ↔ sig = unsignedMark := by
  simp [signatureAccepted]

theorem signatureAccepted_signatureText (key signed : Bytes) :
    signatureAccepted key signed (signatureText key signed) = true := by
  by_cases hkey : key = []
  · rw [hkey, signatureAccepted_nil]
    simp [signatureText]
  · rw [signatureAccepted_iff hkey, signatureText, if_pos hkey, b64urlDecode_b64urlEncode]

structure Authenticated (state : CString) (key : Bytes) (p : TokenParts) (issuedAt ttl : UInt64) :
    Prop where
  parts : tokenParts state.bytes = some p
  issued : parseUint64 p.issued = some issuedAt
  ttl : parseUint64 p.ttl = some ttl
  signature : signatureAccepted key p.signed p.sig = true

theorem unpack_of_authenticated (h : Authenticated state key p issuedAt ttl) (nowMs : UInt64) :
    mcpMrtrStateUnpackRawEx state key nowMs =
      (checkWindow issuedAt ttl nowMs).bind fun _ => unpackPayload p.payload := by
  simp only [mcpMrtrStateUnpackRawEx, h.parts, h.issued, h.ttl, h.signature, Bool.not_true,
    Bool.false_eq_true, if_false]
  cases checkWindow issuedAt ttl nowMs <;> rfl

theorem authenticated_of_unpack {nowMs : UInt64} {data : Bytes}
    (h : mcpMrtrStateUnpackRawEx state key nowMs = .ok data) :
    ∃ p issuedAt ttl, Authenticated state key p issuedAt ttl := by
  unfold mcpMrtrStateUnpackRawEx at h
  split at h
  · cases h
  rename_i p hparts
  split at h
  · rename_i issuedAt ttl hissued httl
    split at h
    · cases h
    · rename_i hsig
      exact ⟨p, issuedAt, ttl, hparts, hissued, httl, by simpa using hsig⟩
  · cases h

def packedParts (data key : Bytes) (issuedAtMs ttlMs : UInt64) : TokenParts :=
  let payload := b64urlEncode data
  let issued := numeral issuedAtMs.toNat
  let ttl := numeral ttlMs.toNat
  ⟨payload, issued, ttl, signatureText key (signedText payload issued ttl)⟩

theorem dot_notMem_numeral (n : Nat) : 0x2E ∉ numeral n := by
  intro h
  exact absurd (isDigit_of_mem_numeral h) (by decide)

theorem dot_notMem_b64urlEncode (d : Bytes) : 0x2E ∉ b64urlEncode d := by
  intro h
  exact (ne_of_mem_b64urlEncode h).1 rfl

theorem dot_notMem_signatureText (key signed : Bytes) : 0x2E ∉ signatureText key signed := by
  unfold signatureText
  split
  · exact dot_notMem_b64urlEncode _
  · decide +kernel

theorem authenticated_packedToken (data key : Bytes) (issuedAtMs ttlMs : UInt64) :
    Authenticated (packedToken data key issuedAtMs ttlMs) key
      (packedParts data key issuedAtMs ttlMs) issuedAtMs ttlMs where
  parts := tokenParts_eq_some.mpr ⟨rfl, dot_notMem_b64urlEncode data, dot_notMem_numeral _,
    dot_notMem_numeral _, dot_notMem_signatureText _ _⟩
  issued := parseUint64_numeral issuedAtMs
  ttl := parseUint64_numeral ttlMs
  signature := signatureAccepted_signatureText key _

theorem mcpMrtrStatePackRawEx_eq (data key : Bytes) (issuedAtMs ttlMs : UInt64) :
    mcpMrtrStatePackRawEx data key issuedAtMs ttlMs =
      .ok (packedToken data key issuedAtMs ttlMs) := by
  have hissued := length_numeral_uint64 issuedAtMs
  have httl := length_numeral_uint64 ttlMs
  refine if_neg ?_
  simp only [signedText, nil_append, length_append, length_cons]
  omega

theorem unpackPayload_b64urlEncode (data : Bytes)
    : unpackPayload (b64urlEncode data) = .ok data := by
  rw [unpackPayload, b64urlDecode_b64urlEncode]

/-- The times at which a token is valid, with the sums of the integers. -/
def InWindow (issuedAt ttl nowMs : Nat) : Prop :=
  ttl = 0 ∨ (nowMs ≤ issuedAt + ttl ∧ issuedAt ≤ nowMs + clockSkewMs.toNat)

theorem checkWindow_eq_ok {nowMs : UInt64} :
    checkWindow issuedAt ttl nowMs = .ok () ↔
      ttl.toNat = 0 ∨ (nowMs.toNat ≤ (issuedAt.toNat + ttl.toNat) % 2 ^ 64 ∧
        issuedAt.toNat ≤ nowMs.toNat + clockSkewMs.toNat) := by
  have hskew : clockSkewMs.toNat = 10000 := rfl
  unfold checkWindow
  simp only [UInt64.lt_iff_toNat_lt, UInt64.toNat_add]
  have hzero : (0 : UInt64).toNat = 0 := rfl
  rw [hzero]
  split
  · rename_i httl
    split
    · rename_i hearly
      rw [UInt64.toNat_sub_of_le _ _ (UInt64.le_iff_toNat_le.mpr (by omega))] at hearly
      simp only [reduceCtorEq, false_iff, not_or, not_and]
      omega
    rename_i hearly
    have hskewed : issuedAt.toNat ≤ nowMs.toNat + clockSkewMs.toNat := by
      by_contra hlate
      refine hearly ⟨by omega, ?_⟩
      rw [UInt64.toNat_sub_of_le _ _ (UInt64.le_iff_toNat_le.mpr (by omega))]
      omega
    split
    · simp only [reduceCtorEq, false_iff, not_or, not_and]
      omega
    · simp only [true_iff]
      omega
  · simp only [true_iff]
    omega

/-- Packing a payload and unpacking the token with the same key, at a time in its window, gives
the payload back. -/
theorem unpack_pack (data key : Bytes) (issuedAtMs ttlMs nowMs : UInt64)
    (hsum : issuedAtMs.toNat + ttlMs.toNat < 2 ^ 64)
    (hnow : ttlMs.toNat = 0 ∨
      (issuedAtMs.toNat ≤ nowMs.toNat ∧ nowMs.toNat ≤ issuedAtMs.toNat + ttlMs.toNat)) :
    ∃ token, mcpMrtrStatePackRawEx data key issuedAtMs ttlMs = .ok token ∧
      mcpMrtrStateUnpackRawEx token key nowMs = .ok data := by
  have hwindow : checkWindow issuedAtMs ttlMs nowMs = .ok () := by
    rw [checkWindow_eq_ok, mod_eq_of_lt hsum]
    omega
  refine ⟨_, mcpMrtrStatePackRawEx_eq data key issuedAtMs ttlMs, ?_⟩
  rw [unpack_of_authenticated (authenticated_packedToken data key issuedAtMs ttlMs), hwindow]
  exact unpackPayload_b64urlEncode data

/-- One byte, packed with a key at time 1 for 5 milliseconds and unpacked at time 6. -/
theorem unpack_pack_byte :
    ∃ token, mcpMrtrStatePackRawEx [0x61] [0x6B] 1 5 = .ok token ∧
      mcpMrtrStateUnpackRawEx token [0x6B] 6 = .ok [0x61] :=
  unpack_pack [0x61] [0x6B] 1 5 6 (by decide) (by decide)

def mcpMrtrStatePack [Libc] (state : JsonValue) (key : Bytes) (nowMs ttlMs : UInt64) :
    Except Status CString :=
  mcpMrtrStatePackRawEx (cString (builtinSerialize state)) key nowMs ttlMs

def mcpMrtrStateUnpack [Libc] (state : CString) (key : Bytes) (nowMs : UInt64) :
    Except Status JsonValue := do
  let data ← mcpMrtrStateUnpackRawEx state key nowMs
  (builtinParse data).elim (.error .invalidArgument) .ok

/-- A packed state is unpacked as it was, at the times at which its token is valid and at no
others. -/
theorem unpack_eq_state_iff [Libc] (hlibc : PrintsDoubles) {v : JsonValue} (hv : v.DistinctKeys)
    (hdepth : v.depth ≤ mcpJsonMaxDepth) (key : Bytes) (issued ttl nowMs : UInt64)
    (hsum : issued.toNat + ttl.toNat < 2 ^ 64) :
    ∃ token, mcpMrtrStatePack v key issued ttl = .ok token ∧
      (mcpMrtrStateUnpack token key nowMs = .ok v ↔
        InWindow issued.toNat ttl.toNat nowMs.toNat) := by
  have htext : cString (builtinSerialize v) = builtinSerialize v :=
    cString_of_notMem ((printed_serValue hlibc v).notMem (by decide))
  refine ⟨_, mcpMrtrStatePackRawEx_eq _ key issued ttl, ?_⟩
  rw [InWindow, ← mod_eq_of_lt hsum, ← checkWindow_eq_ok, htext, mcpMrtrStateUnpack,
    unpack_of_authenticated (authenticated_packedToken _ key issued ttl)]
  cases checkWindow issued ttl nowMs with
  | error => simp [bind, Except.bind]
  | ok =>
    simp [packedParts, unpackPayload_b64urlEncode, bind, Except.bind,
      builtinParse_of_distinctKeys hlibc hv hdepth]

def stepState : JsonValue := .object [("step", .bool true), ("done", .array [.null])]

theorem unpack_eq_state_step : ∃ token,
    @mcpMrtrStatePack decimalLibc stepState [0x6B] 1 5 = .ok token ∧
      (@mcpMrtrStateUnpack decimalLibc token [0x6B] 6 = .ok stepState ↔ InWindow 1 5 6) :=
  @unpack_eq_state_iff decimalLibc decimalLibc_printsDoubles stepState
    ⟨by decide, trivial, ⟨trivial, trivial⟩, trivial⟩ (by decide) _ 1 5 6 (by decide)

/-- The token consists of exactly these parts, separated by dots. -/
structure Consists (state : CString) (p : TokenParts) : Prop where
  text : state.bytes = p.payload ++ 0x2E :: p.issued ++ 0x2E :: p.ttl ++ 0x2E :: p.sig
  payload : 0x2E ∉ p.payload
  issued : 0x2E ∉ p.issued
  ttl : 0x2E ∉ p.ttl
  sig : 0x2E ∉ p.sig

/-- A decimal number below `2 ^ 64`. -/
def IsTime (s : Bytes) : Prop := s ≠ [] ∧ (∀ c ∈ s, IsDigit c) ∧ value s < 2 ^ 64

/-- The last part decodes to the signature of everything before the last dot. -/
def SignedBy (key : Bytes) (p : TokenParts) : Prop :=
  b64urlDecode p.sig = some (hmacSha256 key (p.payload ++ 0x2E :: p.issued ++ 0x2E :: p.ttl))

/-- The last part is the word for a missing signature. -/
def Unsigned (p : TokenParts) : Prop := p.sig = unsignedMark

theorem not_signedBy_of_unsigned (h : Unsigned p) (key : Bytes) : ¬SignedBy key p := by
  intro hsigned
  rw [SignedBy, h] at hsigned
  have := length_of_unsignedMark hsigned
  simp at this

theorem Authenticated.consists (h : Authenticated state key p issuedAt ttl) : Consists state p := by
  obtain ⟨htext, h₁, h₂, h₃, h₄⟩ := tokenParts_eq_some.mp h.parts
  exact ⟨htext, h₁, h₂, h₃, h₄⟩

theorem isTime_of_parseUint64 (h : parseUint64 s = some v) : IsTime s := by
  obtain ⟨hne, -, hdigits, hvalue⟩ := parseUint64_eq_some.mp h
  exact ⟨hne, hdigits, by rw [hvalue]; exact v.toNat_lt⟩

/-- A token that is accepted with a key has four parts, two times and the signature of that key;
one that is accepted without a key has no signature of any key. -/
theorem signed_of_unpack (state : CString) (key : Bytes) (nowMs : UInt64) (data : Bytes)
    (h : mcpMrtrStateUnpackRawEx state key nowMs = .ok data) :
    ∃ p, Consists state p ∧ IsTime p.issued ∧ IsTime p.ttl ∧
      (key ≠ [] → SignedBy key p ∧ ¬Unsigned p) ∧
      (key = [] → Unsigned p ∧ ∀ key', ¬SignedBy key' p) := by
  obtain ⟨p, issuedAt, ttl, hauth⟩ := authenticated_of_unpack h
  refine ⟨p, hauth.consists, isTime_of_parseUint64 hauth.issued, isTime_of_parseUint64 hauth.ttl,
    ?_, ?_⟩
  · intro hkey
    have hsigned : SignedBy key p := (signatureAccepted_iff hkey _ _).mp hauth.signature
    exact ⟨hsigned, fun hunsigned => not_signedBy_of_unsigned hunsigned key hsigned⟩
  intro hkey
  have hsig := hauth.signature
  rw [hkey] at hsig
  have hunsigned : Unsigned p := (signatureAccepted_nil _ _).mp hsig
  exact ⟨hunsigned, not_signedBy_of_unsigned hunsigned⟩

/-- A token packed with a key is accepted with it, and is signed. -/
theorem signed_packedToken_byte :
    mcpMrtrStateUnpackRawEx (packedToken [0x61] [0x6B] 1 5) [0x6B] 6 = .ok [0x61] ∧
      ∃ p, Consists (packedToken [0x61] [0x6B] 1 5) p ∧ IsTime p.issued ∧ IsTime p.ttl ∧
        (([0x6B] : Bytes) ≠ [] → SignedBy [0x6B] p ∧ ¬Unsigned p) ∧
        (([0x6B] : Bytes) = [] → Unsigned p ∧ ∀ key', ¬SignedBy key' p) := by
  have hok : mcpMrtrStateUnpackRawEx (packedToken [0x61] [0x6B] 1 5) [0x6B] 6 = .ok [0x61] := by
    rw [unpack_of_authenticated (authenticated_packedToken [0x61] [0x6B] 1 5),
      checkWindow_eq_ok.mpr (by decide)]
    exact unpackPayload_b64urlEncode [0x61]
  exact ⟨hok, signed_of_unpack _ [0x6B] 6 [0x61] hok⟩

/-- The sum of issue time and time to live does not wrap around, or the test comes out right all the
same. -/
def WindowExact (issuedAt ttl nowMs : Nat) : Prop :=
  issuedAt + ttl < 2 ^ 64 ∨ nowMs + clockSkewMs.toNat < issuedAt ∨ nowMs + 2 ^ 64 ≤ issuedAt + ttl

/-- Unpacking an authenticated token first tests its times.  The test passes exactly in the window
of the token, if and only if the wrapped sum does not get in the way. -/
theorem checkWindow_exact_iff {state : CString} {key : Bytes} {p : TokenParts}
    {issuedAt ttl : UInt64} (h : Authenticated state key p issuedAt ttl) (nowMs : UInt64) :
    (mcpMrtrStateUnpackRawEx state key nowMs =
      (checkWindow issuedAt ttl nowMs).bind fun _ => unpackPayload p.payload) ∧
    ((checkWindow issuedAt ttl nowMs = .ok () ↔
        InWindow issuedAt.toNat ttl.toNat nowMs.toNat) ↔
      WindowExact issuedAt.toNat ttl.toNat nowMs.toNat) := by
  refine ⟨unpack_of_authenticated h nowMs, ?_⟩
  have hskew : clockSkewMs.toNat = 10000 := rfl
  have hissued := issuedAt.toNat_lt
  have httl := ttl.toNat_lt
  have hnow := nowMs.toNat_lt
  rw [checkWindow_eq_ok, InWindow, WindowExact, hskew]
  by_cases hsum : issuedAt.toNat + ttl.toNat < 2 ^ 64
  · rw [mod_eq_of_lt hsum]
    exact ⟨fun _ => .inl hsum, fun _ => Iff.rfl⟩
  have hwrap : (issuedAt.toNat + ttl.toNat) % 2 ^ 64 = issuedAt.toNat + ttl.toNat - 2 ^ 64 := by
    omega
  rw [hwrap]
  constructor
  · intro hiff
    by_contra hnot
    have hwindow : nowMs.toNat ≤ issuedAt.toNat + ttl.toNat ∧
        issuedAt.toNat ≤ nowMs.toNat + 10000 := by omega
    have := hiff.mpr (.inr hwindow)
    omega
  · intro hexact
    omega

/-- A token issued at time 5 for 7 milliseconds, at the end of its window. -/
theorem checkWindow_exact_early :
    Authenticated (packedToken [] [0x6B] 5 7) [0x6B] (packedParts [] [0x6B] 5 7) 5 7 ∧
      (mcpMrtrStateUnpackRawEx (packedToken [] [0x6B] 5 7) [0x6B] 12 =
        (checkWindow 5 7 12).bind fun _ => unpackPayload (packedParts [] [0x6B] 5 7).payload) ∧
      ((checkWindow 5 7 12 = .ok () ↔ InWindow 5 7 12) ↔ WindowExact 5 7 12) :=
  have h := authenticated_packedToken [] [0x6B] 5 7
  ⟨h, checkWindow_exact_iff h 12⟩

/-- A token issued in the last millisecond of the 64-bit range, to live for one, is reported as
expired in that very millisecond. -/
theorem expired_at_issue :
    Authenticated (packedToken [] [0x6B] 0xFFFFFFFFFFFFFFFF 1) [0x6B]
        (packedParts [] [0x6B] 0xFFFFFFFFFFFFFFFF 1) 0xFFFFFFFFFFFFFFFF 1 ∧
      InWindow (0xFFFFFFFFFFFFFFFF : UInt64).toNat (1 : UInt64).toNat
        (0xFFFFFFFFFFFFFFFF : UInt64).toNat ∧
      mcpMrtrStateUnpackRawEx (packedToken [] [0x6B] 0xFFFFFFFFFFFFFFFF 1) [0x6B]
        0xFFFFFFFFFFFFFFFF = .error .timeout := by
  have h := authenticated_packedToken [] [0x6B] 0xFFFFFFFFFFFFFFFF 1
  refine ⟨h, .inr (by decide), ?_⟩
  rw [unpack_of_authenticated h]
  rfl

end Mcpkit.Protocol
