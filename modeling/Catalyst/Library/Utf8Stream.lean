import Mathlib
import Catalyst.Library.Transducer

/-!
# Decoding UTF-8 as it arrives

The decoder of the Encoding Standard reads one byte after another. Bytes that are no character are
written as U+FFFD, and a byte order mark at the start is taken away. Between two chunks it keeps the
character it is in.
-/

namespace Catalyst.Library.Utf8Stream

open Transducer

/-- Where the decoder stands in a character: none of its bytes are needed between two. -/
structure Decoder where
  codePoint : Nat := 0
  bytesSeen : Nat := 0
  bytesNeeded : Nat := 0
  lowerBoundary : Nat := 0x80
  upperBoundary : Nat := 0xbf
  deriving DecidableEq

def replacement : Char := '\ufffd'

def first (b : Nat) : List Char × Decoder :=
  if b ≤ 0x7f then ([Char.ofNat b], {})
  else if 0xc2 ≤ b ∧ b ≤ 0xdf then ([], { codePoint := b % 0x20, bytesNeeded := 1 })
  else if 0xe0 ≤ b ∧ b ≤ 0xef then
    ([], { codePoint := b % 0x10, bytesNeeded := 2,
           lowerBoundary := if b = 0xe0 then 0xa0 else 0x80, upperBoundary := if b = 0xed then 0x9f else 0xbf })
  else if 0xf0 ≤ b ∧ b ≤ 0xf4 then
    ([], { codePoint := b % 0x8, bytesNeeded := 3,
           lowerBoundary := if b = 0xf0 then 0x90 else 0x80, upperBoundary := if b = 0xf4 then 0x8f else 0xbf })
  else ([replacement], {})

/-- A byte that cannot go on with a character ends it and is read anew. -/
def step : Transducer Decoder Nat Char := fun d b =>
  if d.bytesNeeded = 0 then first b
  else if b < d.lowerBoundary ∨ d.upperBoundary < b then (replacement :: (first b).1, (first b).2)
  else if d.bytesSeen + 1 = d.bytesNeeded then ([Char.ofNat (d.codePoint * 0x40 + b % 0x40)], {})
  else ([], { codePoint := d.codePoint * 0x40 + b % 0x40, bytesSeen := d.bytesSeen + 1,
              bytesNeeded := d.bytesNeeded })

def flush (d : Decoder) : List Char := if d.bytesNeeded = 0 then [] else [replacement]

def unmarked : Transducer Bool Char Char := fun bomSeen c => (if bomSeen = false ∧ c = '\ufeff' then [] else [c], true)

/-- `TextDecoder` -/
structure TextDecoder where
  decoder : Decoder := {}
  bomSeen : Bool := false
  deriving DecidableEq

/-- `decoder.decode(bytes, { stream: true })` -/
def TextDecoder.decode : Transducer TextDecoder (List Nat) Char := fun d bytes =>
  let (characters, decoder) := run step d.decoder bytes
  let (text, bomSeen) := run unmarked d.bomSeen characters
  (text, ⟨decoder, bomSeen⟩)

/-- `decoder.decode()` -/
def TextDecoder.finish (d : TextDecoder) : List Char := (run unmarked d.bomSeen (flush d.decoder)).1

def TextDecoder.read (bytes : List Nat) : List Char :=
  (TextDecoder.decode {} bytes).1 ++ TextDecoder.finish (TextDecoder.decode {} bytes).2

def TextDecoder.step : Transducer TextDecoder Nat Char := fun d b => d.decode [b]

theorem TextDecoder.decode_eq_run (d : TextDecoder) (bytes : List Nat) : d.decode bytes = run step d bytes := by
  induction bytes generalizing d with
  | nil => rfl
  | cons b bytes ih =>
    rw [run_cons, ← ih]
    simp only [step, decode, run_cons, run_nil, List.append_nil, run_append]

/-- `Buffer.from(text, "utf8")` -/
def encode (text : List Char) : List UInt8 := text.flatMap String.utf8EncodeChar

/-- `buffer.toString("utf8")` -/
def decode (bytes : List UInt8) : List Char :=
  let (text, decoder) := run step {} (bytes.map UInt8.toNat)
  text ++ flush decoder

def byteNumbers (n : Nat) : List Nat :=
  if n ≤ 0x7f then [n]
  else if n ≤ 0x7ff then [n / 64 % 32 + 0xc0, n % 64 + 0x80]
  else if n ≤ 0xffff then [n / 4096 % 16 + 0xe0, n / 64 % 64 + 0x80, n % 64 + 0x80]
  else [n / 262144 % 8 + 0xf0, n / 4096 % 64 + 0x80, n / 64 % 64 + 0x80, n % 64 + 0x80]

theorem toNat_ofNat {n : Nat} (h : n < 256) : (UInt8.ofNat n).toNat = n := by
  rw [UInt8.toNat_ofNat', Nat.mod_eq_of_lt h]

theorem map_utf8EncodeChar (c : Char) : (String.utf8EncodeChar c).map UInt8.toNat = byteNumbers c.toNat := by
  rw [String.utf8EncodeChar, byteNumbers]
  rw [← Char.toNat]
  split_ifs with h1 h2 h3 <;>
    simp (disch := omega) only [List.map_cons, List.map_nil, toNat_ofNat]

theorem step_more {d : Decoder} {b : Nat} (hneeded : d.bytesSeen + 1 < d.bytesNeeded) (hlower : d.lowerBoundary ≤ b)
    (hupper : b ≤ d.upperBoundary) : step d b = ([], ⟨d.codePoint * 0x40 + b % 0x40, d.bytesSeen + 1, d.bytesNeeded, 0x80, 0xbf⟩) := by
  rw [step, if_neg (by omega), if_neg (by omega), if_neg (by omega)]

theorem step_last {d : Decoder} {b : Nat} (hneeded : d.bytesSeen + 1 = d.bytesNeeded) (hlower : d.lowerBoundary ≤ b)
    (hupper : b ≤ d.upperBoundary) : step d b = ([Char.ofNat (d.codePoint * 0x40 + b % 0x40)], {}) := by
  rw [step, if_neg (by omega), if_neg (by omega), if_pos hneeded]

theorem run_byteNumbers (c : Char) : run step {} (byteNumbers c.toNat) = ([c], {}) := by
  have hvalid : c.toNat < 0xd800 ∨ 0xdfff < c.toNat ∧ c.toNat < 0x110000 := c.valid
  have hofNat : Char.ofNat c.toNat = c := Char.ofNat_toNat c
  generalize c.toNat = n at hvalid hofNat
  subst hofNat
  rw [byteNumbers]
  split_ifs with h1 h2 h3
  · rw [run_cons, run_nil, step, if_pos rfl, first, if_pos h1]
    rfl
  · have hfirst : step {} (n / 64 % 32 + 0xc0) = ([], ⟨n / 64, 0, 1, 0x80, 0xbf⟩) := by
      rw [step, if_pos rfl, first, if_neg (by omega), if_pos (by omega)]
      congr 2
      omega
    rw [run_cons, hfirst, run_cons, step_last rfl (by dsimp only; omega) (by dsimp only; omega), run_nil]
    have hvalue : n / 64 * 0x40 + (n % 64 + 0x80) % 0x40 = n := by omega
    simp only [hvalue, List.nil_append, List.append_nil]
  · have hfirst : step {} (n / 4096 % 16 + 0xe0) = ([], ⟨n / 4096, 0, 2,
        if n / 4096 % 16 + 0xe0 = 0xe0 then 0xa0 else 0x80, if n / 4096 % 16 + 0xe0 = 0xed then 0x9f else 0xbf⟩) := by
      rw [step, if_pos rfl, first, if_neg (by omega), if_neg (by omega), if_pos (by omega)]
      congr 2
      omega
    rw [run_cons, hfirst, run_cons, step_more Nat.one_lt_two (by dsimp only; split_ifs <;> omega)
      (by dsimp only; split_ifs <;> omega), run_cons, step_last rfl (by dsimp only; omega) (by dsimp only; omega), run_nil]
    have hvalue : (n / 4096 * 0x40 + (n / 64 % 64 + 0x80) % 0x40) * 0x40 + (n % 64 + 0x80) % 0x40 = n := by omega
    simp only [hvalue, List.nil_append, List.append_nil]
  · have hfirst : step {} (n / 262144 % 8 + 0xf0) = ([], ⟨n / 262144, 0, 3,
        if n / 262144 % 8 + 0xf0 = 0xf0 then 0x90 else 0x80, if n / 262144 % 8 + 0xf0 = 0xf4 then 0x8f else 0xbf⟩) := by
      rw [step, if_pos rfl, first, if_neg (by omega), if_neg (by omega), if_neg (by omega), if_pos (by omega)]
      congr 2
      omega
    rw [run_cons, hfirst, run_cons, step_more (by dsimp only; omega) (by dsimp only; split_ifs <;> omega)
      (by dsimp only; split_ifs <;> omega), run_cons, step_more (by dsimp only; omega) (by dsimp only; omega)
      (by dsimp only; omega), run_cons, step_last rfl (by dsimp only; omega) (by dsimp only; omega), run_nil]
    have hvalue : ((n / 262144 * 0x40 + (n / 4096 % 64 + 0x80) % 0x40) * 0x40 + (n / 64 % 64 + 0x80) % 0x40) * 0x40 +
        (n % 64 + 0x80) % 0x40 = n := by omega
    simp only [hvalue, List.nil_append, List.append_nil]

theorem run_encode (text : List Char) : run step {} ((encode text).map UInt8.toNat) = (text, {}) := by
  induction text with
  | nil => rfl
  | cons c text ih =>
    rw [encode, List.flatMap_cons, List.map_append, run_append, map_utf8EncodeChar, run_byteNumbers, ← encode, ih]
    rfl

theorem decode_encode (text : List Char) : decode (encode text) = text := by
  rw [decode, run_encode]
  exact List.append_nil text

theorem encode_injective : Function.Injective encode := Function.LeftInverse.injective decode_encode

end Catalyst.Library.Utf8Stream
