import Mathlib.Data.List.Basic
import TigerClaw.Basic
import TigerClaw.Library.AddressBlock

/-!
# The guard of `fetch_url`

`src/cli/commands/live_runner.zig`.  A URL is handed to a browser unless its host is the literal of
an address that is not public.

* `ensurePublicHost`, `runFetchUrl`: the code, up to the command line.  `Std`: the parsers of the
  standard library.
* `Refused`: the ranges of addresses, and the forms of IPv6 that embed an IPv4 address.
* `refusesV4_iff`, `refusesV6_iff`: the bytes that the guard looks at decide.
* `passed_iff`: what is handed on is public exactly if the host is spelled without percent-escapes,
  or the guard would let the decoded host pass.
-/

namespace TigerClaw
namespace Cli

namespace FetchUrl

open AddressBlock (Block head)

/-- `std.Uri.Component`. -/
inductive Component where
  | raw (text : Bytes)
  | percentEncoded (text : Bytes)

/-- The part of `std.Uri` that is looked at. -/
structure Uri where
  host : Option Component

/-- `std.Uri.parse`, `parseIp4` and `parseIp6`. -/
structure Std where
  parseUri : Bytes → Option Uri
  parseIp4 : Bytes → Option (Vector UInt8 4)
  parseIp6 : Bytes → Option (Vector UInt8 16)

inductive FetchError where
  | disallowedScheme
  | invalidUrl
  | missingHost
  | disallowedAddress
  deriving DecidableEq

/-- The text of a component, as it stands in the URL. -/
def Component.text : Component → Bytes
  | .raw h => h
  | .percentEncoded h => h

def stripBrackets (host : Bytes) : Bytes :=
  if host.length ≥ 2 ∧ host.head? = some 0x5B ∧ host.getLast? = some 0x5D then
    (host.drop 1).dropLast
  else host

/-- The checks of an IPv4 address, by its first two bytes. -/
def refusesV4 (b₀ b₁ : UInt8) : Bool :=
  b₀ = 127 || b₀ = 10 || b₀ = 172 && b₁ &&& 0xF0 = 0x10 || b₀ = 192 && b₁ = 168 ||
    b₀ = 169 && b₁ = 254 || b₀ = 0

/-- The checks of an IPv6 address. -/
def refusesV6 (b : Vector UInt8 16) : Bool :=
  let isLoopback := (b.toList.take 15).all (· = 0)
  if isLoopback && b[15] = 1 then true
  else if b[0] &&& 0xFE = 0xFC then true
  else if b[0] = 0xFE && b[1] &&& 0xC0 = 0x80 then true
  else if (b.toList.take 10).all (· = 0) then
    let mapped := b[10] = 0xFF && b[11] = 0xFF
    let compat := b[10] = 0 && b[11] = 0
    (mapped || compat) && refusesV4 b[12] b[13]
  else false

section

variable (std : Std)

def ensurePublicHost (host : Bytes) : Except FetchError Unit :=
  let raw := stripBrackets host
  match std.parseIp4 raw with
  | some b => if refusesV4 b[0] b[1] then .error .disallowedAddress else .ok ()
  | none =>
    match std.parseIp6 raw with
    | some b => if refusesV6 b then .error .disallowedAddress else .ok ()
    | none => .ok ()

def commandFront : Bytes :=
  ascii "lightpanda fetch --dump markdown --wait_until domcontentloaded --wait_ms 2000 '"

def commandBack : Bytes := ascii "' 2>/dev/null"

/-- The command line of `runLightpanda`, which has to fit into its buffer. -/
def lightpandaCommand (url : Bytes) : Except FetchError Bytes :=
  if url.any (· = 0x27) then .error .invalidUrl
  else
    let cmd := commandFront ++ url ++ commandBack
    if cmd.length + 1 > 8 * 1024 then .error .invalidUrl else .ok cmd

/-- The command that is run for a URL. -/
def runFetchUrl (url : Bytes) : Except FetchError Bytes :=
  if ¬ (ascii "http://").isPrefixOf url ∧ ¬ (ascii "https://").isPrefixOf url then
    .error .disallowedScheme
  else
    match std.parseUri url with
    | none => .error .invalidUrl
    | some uri =>
      match uri.host with
      | none => .error .missingHost
      | some host =>
        match ensurePublicHost std host.text with
        | .error e => .error e
        | .ok _ => lightpandaCommand url

/-- The host of a URL. -/
def fetchedHost (url : Bytes) : Option Component := (std.parseUri url).bind Uri.host

end

/-! ## Addresses -/

/-- The blocks of IPv4 addresses that are not public. -/
def blocksV4 : List Block :=
  [⟨[127, 0, 0, 0], 8⟩, ⟨[10, 0, 0, 0], 8⟩, ⟨[172, 16, 0, 0], 12⟩, ⟨[192, 168, 0, 0], 16⟩,
    ⟨[169, 254, 0, 0], 16⟩, ⟨[0, 0, 0, 0], 8⟩]

/-- `::1`, `fc00::/7` and `fe80::/10`. -/
def blocksV6 : List Block :=
  [⟨[0, 0, 0, 0, 0, 0, 0, 0, 0, 0, 0, 0, 0, 0, 0, 1], 128⟩,
    ⟨[0xFC, 0, 0, 0, 0, 0, 0, 0, 0, 0, 0, 0, 0, 0, 0, 0], 7⟩,
    ⟨[0xFE, 0x80, 0, 0, 0, 0, 0, 0, 0, 0, 0, 0, 0, 0, 0, 0], 10⟩]

/-- `::ffff:a.b.c.d` -/
def mapped (v : Vector UInt8 4) : Vector UInt8 16 :=
  #v[0, 0, 0, 0, 0, 0, 0, 0, 0, 0, 0xFF, 0xFF, v[0], v[1], v[2], v[3]]

/-- `::a.b.c.d` -/
def compatible (v : Vector UInt8 4) : Vector UInt8 16 :=
  #v[0, 0, 0, 0, 0, 0, 0, 0, 0, 0, 0, 0, v[0], v[1], v[2], v[3]]

inductive Address where
  | ip4 (b : Vector UInt8 4)
  | ip6 (b : Vector UInt8 16)
  deriving DecidableEq

def RefusedV4 (b : Vector UInt8 4) : Prop := ∃ block ∈ blocksV4, block.Contains b.toList

/-- What is not public, as itself or as the IPv4 address that it embeds. -/
inductive Refused : Address → Prop
  | v4 {b : Vector UInt8 4} : RefusedV4 b → Refused (.ip4 b)
  | v6 {b : Vector UInt8 16} : (∃ block ∈ blocksV6, block.Contains b.toList) → Refused (.ip6 b)
  | mapped {v : Vector UInt8 4} : RefusedV4 v → Refused (.ip6 (mapped v))
  | compatible {v : Vector UInt8 4} : RefusedV4 v → Refused (.ip6 (compatible v))

/-- A hexadecimal digit in either case. -/
def hexDigit? (c : UInt8) : Option UInt8 :=
  if 0x30 ≤ c ∧ c ≤ 0x39 then some (c - 0x30)
  else if 0x41 ≤ c ∧ c ≤ 0x46 then some (c - 0x37)
  else if 0x61 ≤ c ∧ c ≤ 0x66 then some (c - 0x57)
  else none

/-- Percent-decoding; what is no escape stays as it is. -/
def percentDecode : Bytes → Bytes
  | 0x25 :: hi :: lo :: rest =>
    match hexDigit? hi, hexDigit? lo with
    | some h, some l => (16 * h + l) :: percentDecode rest
    | _, _ => 0x25 :: percentDecode (hi :: lo :: rest)
  | c :: rest => c :: percentDecode rest
  | [] => []

/-- What a component stands for. -/
def Component.decoded : Component → Bytes
  | .raw h => h
  | .percentEncoded h => percentDecode h

/-- The address that a host spells, between brackets or not. -/
def literal (std : Std) (host : Bytes) : Option Address :=
  match std.parseIp4 (stripBrackets host) with
  | some b => some (.ip4 b)
  | none => (std.parseIp6 (stripBrackets host)).map .ip6

/-! ## The checks -/

theorem eq_vector_four (b : Vector UInt8 4) : b = #v[b[0], b[1], b[2], b[3]] := by
  obtain ⟨⟨l⟩, h⟩ := b
  match l, h with
  | [_, _, _, _], _ => rfl

theorem eq_vector_sixteen (b : Vector UInt8 16) :
    b = #v[b[0], b[1], b[2], b[3], b[4], b[5], b[6], b[7], b[8], b[9], b[10], b[11], b[12], b[13],
      b[14], b[15]] := by
  obtain ⟨⟨l⟩, h⟩ := b
  match l, h with
  | [_, _, _, _, _, _, _, _, _, _, _, _, _, _, _, _], _ => rfl

theorem masked_iff (mask : UInt8) (value : UInt8) (k q : ℕ)
    (h : ∀ n < 256, (UInt8.ofNat n &&& mask = value ↔ n / k = q)) (c : UInt8) :
    c &&& mask = value ↔ c.toNat / k = q := by
  rw [← h c.toNat c.toNat_lt, UInt8.ofNat_toNat]

set_option maxRecDepth 5000 in
theorem high_four_iff (c : UInt8) : c &&& 0xF0 = 0x10 ↔ c.toNat / 16 = 1 :=
  masked_iff _ _ _ _ (by decide) c

set_option maxRecDepth 5000 in
theorem high_seven_iff (c : UInt8) : c &&& 0xFE = 0xFC ↔ c.toNat / 2 = 126 :=
  masked_iff _ _ _ _ (by decide) c

set_option maxRecDepth 5000 in
theorem high_two_iff (c : UInt8) : c &&& 0xC0 = 0x80 ↔ c.toNat / 64 = 2 :=
  masked_iff _ _ _ _ (by decide) c

theorem eq_iff_toNat (c d : UInt8) : c = d ↔ c.toNat = d.toNat := UInt8.toNat_inj.symm

/-- A block of at most two bytes. -/
theorem contains_two {n₀ n₁ b₀ b₁ : UInt8} {ns bs : List UInt8} {bits : ℕ}
    (hlength : bs.length = ns.length) (hbits : bits ≤ 16) :
    (⟨n₀ :: n₁ :: ns, bits⟩ : Block).Contains (b₀ :: b₁ :: bs) ↔
      (b₀.toNat * 256 + b₁.toNat) / 2 ^ (16 - bits) =
        (n₀.toNat * 256 + n₁.toNat) / 2 ^ (16 - bits) := by
  rw [← AddressBlock.head_pair, ← AddressBlock.head_pair]
  exact @AddressBlock.contains_append bits [b₀, b₁] [n₀, n₁] bs ns rfl hlength hbits

/-- **The first two bytes decide** about an IPv4 address. -/
theorem refusesV4_iff (b : Vector UInt8 4) : refusesV4 b[0] b[1] = true ↔ RefusedV4 b := by
  have hb : b.toList = [b[0], b[1], b[2], b[3]] := congrArg Vector.toList (eq_vector_four b)
  have h₀ := b[0].toNat_lt
  have h₁ := b[1].toNat_lt
  have hblock (n₀ n₁ : UInt8) (bits : ℕ) (hbits : bits ≤ 16) :
      (⟨[n₀, n₁, 0, 0], bits⟩ : Block).Contains [b[0], b[1], b[2], b[3]] ↔
        (b[0].toNat * 256 + b[1].toNat) / 2 ^ (16 - bits) =
          (n₀.toNat * 256 + n₁.toNat) / 2 ^ (16 - bits) := contains_two rfl hbits
  rw [RefusedV4, hb]
  simp only [blocksV4, List.exists_mem_cons_iff, List.not_mem_nil, false_and, exists_false,
    or_false]
  rw [hblock 127 0 8 (by decide), hblock 10 0 8 (by decide), hblock 172 16 12 (by decide),
    hblock 192 168 16 (by decide), hblock 169 254 16 (by decide), hblock 0 0 8 (by decide)]
  simp only [refusesV4, Bool.or_eq_true, Bool.and_eq_true, decide_eq_true_eq, high_four_iff,
    eq_iff_toNat b[0], eq_iff_toNat b[1], UInt8.reduceToNat, Nat.reduceSub, Nat.reducePow,
    Nat.reduceMul, Nat.reduceAdd, Nat.reduceDiv]
  omega

/-- The blocks of IPv6 addresses, by the bytes that the guard looks at. -/
theorem containsV6_iff (b : Vector UInt8 16) :
    (∃ block ∈ blocksV6, block.Contains b.toList) ↔
      b = #v[0, 0, 0, 0, 0, 0, 0, 0, 0, 0, 0, 0, 0, 0, 0, 1] ∨ b[0] &&& 0xFE = 0xFC ∨
        b[0] = 0xFE ∧ b[1] &&& 0xC0 = 0x80 := by
  have hb : b.toList = [b[0], b[1], b[2], b[3], b[4], b[5], b[6], b[7], b[8], b[9], b[10], b[11],
    b[12], b[13], b[14], b[15]] := congrArg Vector.toList (eq_vector_sixteen b)
  have h₀ := b[0].toNat_lt
  have h₁ := b[1].toNat_lt
  have hblock (n₀ n₁ : UInt8) (bits : ℕ) (hbits : bits ≤ 16) :
      (⟨[n₀, n₁, 0, 0, 0, 0, 0, 0, 0, 0, 0, 0, 0, 0, 0, 0], bits⟩ : Block).Contains b.toList ↔
        (b[0].toNat * 256 + b[1].toNat) / 2 ^ (16 - bits) =
          (n₀.toNat * 256 + n₁.toNat) / 2 ^ (16 - bits) := by
    rw [hb]
    exact contains_two rfl hbits
  have hone : (⟨[0, 0, 0, 0, 0, 0, 0, 0, 0, 0, 0, 0, 0, 0, 0, 1], 128⟩ : Block).Contains b.toList ↔
      b = #v[0, 0, 0, 0, 0, 0, 0, 0, 0, 0, 0, 0, 0, 0, 0, 1] := by
    rw [← Vector.toList_inj]
    exact AddressBlock.contains_full
  simp only [blocksV6, List.exists_mem_cons_iff, List.not_mem_nil, false_and, exists_false,
    or_false]
  rw [hone, hblock 0xFC 0 7 (by decide), hblock 0xFE 0x80 10 (by decide)]
  simp only [high_seven_iff, high_two_iff, eq_iff_toNat b[0], UInt8.reduceToNat, Nat.reduceSub,
    Nat.reducePow, Nat.reduceMul, Nat.reduceAdd, Nat.reduceDiv]
  refine or_congr_right ?_
  omega

/-- **What the guard refuses of the IPv6 addresses.** -/
theorem refusesV6_iff (b : Vector UInt8 16) : refusesV6 b = true ↔ Refused (.ip6 b) := by
  have hrefused : Refused (.ip6 b) ↔ (∃ block ∈ blocksV6, block.Contains b.toList) ∨
      ∃ v, (b = mapped v ∨ b = compatible v) ∧ RefusedV4 v := by
    constructor
    · intro h
      cases h with
      | v6 h => exact .inl h
      | mapped h => exact .inr ⟨_, .inl rfl, h⟩
      | compatible h => exact .inr ⟨_, .inr rfl, h⟩
    · rintro (h | ⟨v, rfl | rfl, h⟩)
      · exact .v6 h
      · exact .mapped h
      · exact .compatible h
  -- the guard finds the embedded address by its zeros
  have hembedded : (∃ v, (b = mapped v ∨ b = compatible v) ∧ RefusedV4 v) ↔
      (∀ c ∈ b.toList.take 10, c = 0) ∧ (b[10] = 0xFF ∧ b[11] = 0xFF ∨ b[10] = 0 ∧ b[11] = 0) ∧
        refusesV4 b[12] b[13] = true := by
    constructor
    · rintro ⟨v, rfl | rfl, h⟩
      · exact ⟨by simp [mapped], .inl ⟨rfl, rfl⟩, (refusesV4_iff v).mpr h⟩
      · exact ⟨by simp [compatible], .inr ⟨rfl, rfl⟩, (refusesV4_iff v).mpr h⟩
    · rintro ⟨hzero, hmiddle, h⟩
      refine ⟨#v[b[12], b[13], b[14], b[15]], ?_, (refusesV4_iff _).mp h⟩
      rw [eq_vector_sixteen b] at hzero
      simp only [Vector.toList_mk, List.take_succ_cons, List.take_zero, List.mem_cons,
        List.not_mem_nil, or_false, forall_eq_or_imp, forall_eq] at hzero
      obtain ⟨h0, h1, h2, h3, h4, h5, h6, h7, h8, h9⟩ := hzero
      rcases hmiddle with ⟨h10, h11⟩ | ⟨h10, h11⟩
      · left
        rw [mapped, eq_vector_sixteen b]
        simp only [h0, h1, h2, h3, h4, h5, h6, h7, h8, h9, h10, h11]
        rfl
      · right
        rw [compatible, eq_vector_sixteen b]
        simp only [h0, h1, h2, h3, h4, h5, h6, h7, h8, h9, h10, h11]
        rfl
  have hloopback : (∀ c ∈ b.toList.take 15, c = 0) ∧ b[15] = 1 ↔
      b = #v[0, 0, 0, 0, 0, 0, 0, 0, 0, 0, 0, 0, 0, 0, 0, 1] := by
    constructor
    · rintro ⟨hzero, h15⟩
      rw [eq_vector_sixteen b] at hzero
      simp only [Vector.toList_mk, List.take_succ_cons, List.take_zero, List.mem_cons,
        List.not_mem_nil, or_false, forall_eq_or_imp, forall_eq] at hzero
      obtain ⟨h0, h1, h2, h3, h4, h5, h6, h7, h8, h9, h10, h11, h12, h13, h14⟩ := hzero
      rw [eq_vector_sixteen b]
      simp only [h0, h1, h2, h3, h4, h5, h6, h7, h8, h9, h10, h11, h12, h13, h14, h15]
    · rintro rfl
      exact ⟨by simp, rfl⟩
  rw [hrefused, containsV6_iff, hembedded, ← hloopback, refusesV6]
  simp only [List.all_eq_true, decide_eq_true_eq, Bool.and_eq_true]
  by_cases hone : (∀ c ∈ b.toList.take 15, c = 0) ∧ b[15] = 1
  · rw [if_pos hone]
    exact iff_of_true rfl (.inl (.inl hone))
  rw [if_neg hone, or_iff_right hone]
  by_cases hlocal : b[0] &&& 0xFE = 0xFC
  · rw [if_pos hlocal]
    exact iff_of_true rfl (.inl (.inl hlocal))
  rw [if_neg hlocal, or_iff_right hlocal]
  by_cases hlink : b[0] = 0xFE ∧ b[1] &&& 0xC0 = 0x80
  · rw [if_pos hlink]
    exact iff_of_true rfl (.inl hlink)
  rw [if_neg hlink, or_iff_right hlink]
  by_cases hzero : ∀ c ∈ b.toList.take 10, c = 0
  · rw [if_pos hzero, and_iff_right hzero]
    simp only [Bool.and_eq_true, Bool.or_eq_true, decide_eq_true_eq]
  · rw [if_neg hzero]
    exact iff_of_false Bool.false_ne_true fun h => hzero h.1

/-- **One address has one answer**, in each of its three forms. -/
theorem refusesV6_embedded (v : Vector UInt8 4) :
    refusesV6 (mapped v) = refusesV4 v[0] v[1] ∧
      refusesV6 (compatible v) = refusesV4 v[0] v[1] := by
  constructor
  · simp [refusesV6, mapped]
  · have hzero : v[0] = 0 → v[1] = 0 → v[2] = 0 → refusesV4 v[0] v[1] = true := by
      intro h₀ h₁ _
      rw [h₀, h₁]
      decide
    -- `::1` is refused as itself and as `0.0.0.1`
    by_cases hlast : v[3] = 1
    · simpa [refusesV6, compatible, hlast] using hzero
    · simp [refusesV6, compatible, hlast]

/-! ## What is handed on -/

/-- **The guard lets pass what is no literal, or one of a public address.** -/
theorem ensurePublicHost_eq_ok_iff (std : Std) (host : Bytes) :
    ensurePublicHost std host = .ok () ↔ ∀ address, literal std host = some address →
      ¬ Refused address := by
  unfold ensurePublicHost literal
  dsimp only
  cases std.parseIp4 (stripBrackets host) with
  | some b =>
    have hrefused : Refused (.ip4 b) ↔ refusesV4 b[0] b[1] = true := by
      rw [refusesV4_iff]
      refine ⟨fun h => ?_, .v4⟩
      cases h with
      | v4 h => exact h
    simp only [Option.some.injEq, forall_eq']
    rw [hrefused]
    by_cases h : refusesV4 b[0] b[1] = true
    · simp [h]
    · simp [h]
  | none =>
    cases std.parseIp6 (stripBrackets host) with
    | some b =>
      simp only [Option.map_some, Option.some.injEq, forall_eq']
      rw [← refusesV6_iff]
      by_cases h : refusesV6 b = true
      · simp [h]
      · simp [h]
    | none => simp

/-- What is run has passed the guard. -/
theorem ensurePublicHost_of_runFetchUrl {std : Std} {url cmd : Bytes} {host : Component}
    (hhost : fetchedHost std url = some host) (hrun : runFetchUrl std url = .ok cmd) :
    ensurePublicHost std host.text = .ok () := by
  obtain ⟨uri, huri, hhost⟩ := Option.bind_eq_some_iff.mp hhost
  unfold runFetchUrl at hrun
  split at hrun
  · cases hrun
  · rw [huri] at hrun
    dsimp only at hrun
    rw [hhost] at hrun
    dsimp only at hrun
    split at hrun
    · cases hrun
    · assumption

/-- **When what is handed on is public**: exactly if its host is spelled without percent-escapes,
or the guard lets the decoded host pass.  The three forms of an IPv4 address have one answer. -/
theorem passed_iff {std : Std} {url cmd : Bytes} {host : Component}
    (hhost : fetchedHost std url = some host) (hrun : runFetchUrl std url = .ok cmd) :
    ((∀ address, literal std host.decoded = some address → ¬ Refused address) ∧
      ∀ v : Vector UInt8 4, (Refused (.ip6 (mapped v)) ↔ Refused (.ip4 v)) ∧
        (Refused (.ip6 (compatible v)) ↔ Refused (.ip4 v))) ↔
      (host.decoded = host.text ∨ ensurePublicHost std host.decoded = .ok ()) := by
  have hforms (v : Vector UInt8 4) : (Refused (.ip6 (mapped v)) ↔ Refused (.ip4 v)) ∧
      (Refused (.ip6 (compatible v)) ↔ Refused (.ip4 v)) := by
    have hv4 : Refused (.ip4 v) ↔ refusesV4 v[0] v[1] = true := by
      rw [refusesV4_iff]
      refine ⟨fun h => ?_, .v4⟩
      cases h with
      | v4 h => exact h
    rw [hv4, ← refusesV6_iff, ← refusesV6_iff, (refusesV6_embedded v).1, (refusesV6_embedded v).2]
    exact ⟨Iff.rfl, Iff.rfl⟩
  rw [and_iff_left hforms, ← ensurePublicHost_eq_ok_iff]
  refine ⟨.inr, ?_⟩
  rintro (hplain | hguard)
  · rw [hplain]
    exact ensurePublicHost_of_runFetchUrl hhost hrun
  · exact hguard

/-- A public address. -/
theorem passed_iff_public :
    ∃ std : Std, std.parseUri (ascii "http://8.8.8.8/") =
        some ⟨some (.percentEncoded (ascii "8.8.8.8"))⟩ ∧
      ∀ address, literal std (ascii "8.8.8.8") = some address → ¬ Refused address := by
  let std : Std := {
    parseUri := fun _ => some ⟨some (.percentEncoded (ascii "8.8.8.8"))⟩
    parseIp4 := fun _ => some #v[8, 8, 8, 8]
    parseIp6 := fun _ => none }
  have hrun : runFetchUrl std (ascii "http://8.8.8.8/") =
      .ok (commandFront ++ ascii "http://8.8.8.8/" ++ commandBack) := by decide
  exact ⟨std, rfl, ((@passed_iff std _ _ (.percentEncoded (ascii "8.8.8.8")) rfl hrun).mpr
    (.inl rfl)).1⟩

set_option maxRecDepth 5000 in
/-- The loopback address with its dots escaped is handed on. -/
theorem runFetchUrl_escaped :
    ∃ std : Std, std.parseUri (ascii "http://127%2E0%2E0%2E1/") =
        some ⟨some (.percentEncoded (ascii "127%2E0%2E0%2E1"))⟩ ∧
      std.parseIp4 (ascii "127.0.0.1") = some #v[127, 0, 0, 1] ∧
      runFetchUrl std (ascii "http://127%2E0%2E0%2E1/") =
        .ok (commandFront ++ ascii "http://127%2E0%2E0%2E1/" ++ commandBack) ∧
      literal std (Component.percentEncoded (ascii "127%2E0%2E0%2E1")).decoded =
        some (.ip4 #v[127, 0, 0, 1]) ∧
      Refused (.ip4 #v[127, 0, 0, 1]) := by
  refine ⟨{
    parseUri := fun _ => some ⟨some (.percentEncoded (ascii "127%2E0%2E0%2E1"))⟩
    parseIp4 := fun text => if text = ascii "127.0.0.1" then some #v[127, 0, 0, 1] else none
    parseIp6 := fun _ => none }, rfl, by decide, by decide, by decide, .v4 ?_⟩
  exact ⟨⟨[127, 0, 0, 0], 8⟩, by decide, by decide⟩

end FetchUrl

end Cli
end TigerClaw
