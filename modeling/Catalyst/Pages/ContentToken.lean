import Catalyst.Library.Base64Url
import Catalyst.Library.JsonNumbers
import Mathlib

/-!
# The token of a page's address

The address of a page's files holds a token: the viewer, the mount and the expiry as JSON, and a
MAC over this text, the client instance and the file set of the address.
-/

namespace Catalyst.Pages

open Library Library.JsonNumber

def codePointBytes : CodePoint → List UInt8
  | .pair high low _ =>
    let c := 0x10000 + (high - 0xd800) * 0x400 + (low - 0xdc00)
    [.ofNat (0xf0 + c / 0x40000), .ofNat (0x80 + c / 0x1000 % 0x40), .ofNat (0x80 + c / 0x40 % 0x40),
      .ofNat (0x80 + c % 0x40)]
  | .unit u =>
    if u < 0x80 then [.ofNat u]
    else if u < 0x800 then [.ofNat (0xc0 + u / 0x40), .ofNat (0x80 + u % 0x40)]
    else if isHighSurrogate u || isLowSurrogate u then [0xef, 0xbf, 0xbd]
    else [.ofNat (0xe0 + u / 0x1000), .ofNat (0x80 + u / 0x40 % 0x40), .ofNat (0x80 + u % 0x40)]

def utf8 (us : Units) : List UInt8 := (codePoints us).flatMap codePointBytes

/-- `toString("base64url")` -/
def toBase64Url (bytes : List UInt8) : Units := (Base64Url.encode bytes).map Char.toNat

/-- `Buffer.from(text, "base64url")` -/
def fromBase64Url (us : Units) : List UInt8 := Base64Url.decode (us.map Char.ofNat)

structure AppContentClaims where
  fileSetId : Units
  viewerId : Units
  pageSessionId : Units
  expiresAt : Nat
  deriving DecidableEq

inductive AppContentTokenRefusal
  | tokenInvalid
  | tokenExpired
  deriving DecidableEq

structure AppContentPayload where
  u : Units
  s : Units
  e : Nat
  deriving DecidableEq

/-- HMAC-SHA-256 of a text, and a text in UTF-8 read as JSON and held against `payloadSchema`. -/
structure ContentPlatform where
  hmac : List UInt8 → Units → List UInt8
  hmac_length : ∀ key text, (hmac key text).length = 32
  readPayload : List UInt8 → Option AppContentPayload

def appContentTokenMaxChars : Nat := 512

def appContentKeyLabel : Units := ascii "app-content/v1"

/-- `JSON.stringify` of the payload -/
def AppContentClaims.json (claims : AppContentClaims) : Units :=
  ascii "\x7b\"u\":" ++ quote claims.viewerId ++ ascii ",\"s\":" ++ quote claims.pageSessionId ++ ascii ",\"e\":" ++
    digitsOf claims.expiresAt ++ ascii "\x7d"

def AppContentClaims.payload (claims : AppContentClaims) : Units := toBase64Url (utf8 claims.json)

/-- `JSON.stringify` of the label, the client instance, the file set and the payload -/
def macText (clientInstanceId fileSetId payload : Units) : Units :=
  ascii "[" ++ quote appContentKeyLabel ++ ascii "," ++ quote clientInstanceId ++ ascii "," ++ quote fileSetId ++
    ascii "," ++ quote payload ++ ascii "]"

def ContentPlatform.mac (P : ContentPlatform) (key : List UInt8) (clientInstanceId fileSetId payload : Units) : List UInt8 :=
  P.hmac key (macText clientInstanceId fileSetId payload)

def dot : Nat := 0x2e

def mintAppContentToken (P : ContentPlatform) (key : List UInt8) (clientInstanceId : Units) (claims : AppContentClaims) :
    Units :=
  claims.payload ++ dot :: toBase64Url (P.mac key clientInstanceId claims.fileSetId claims.payload)

def checkAppContentToken (P : ContentPlatform) (key : List UInt8) (clientInstanceId fileSetId token : Units)
    (nowSeconds : Nat) : Except AppContentTokenRefusal AppContentClaims :=
  if appContentTokenMaxChars < token.length then .error .tokenInvalid
  else match token.splitOn dot with
  | [payload, signature] =>
    let expected := P.mac key clientInstanceId fileSetId payload
    let given := fromBase64Url signature
    if payload = [] ∨ signature = [] then .error .tokenInvalid
    -- decoding drops characters, so that the text is compared as well
    else if given ≠ expected ∨ toBase64Url given ≠ signature then .error .tokenInvalid
    else match P.readPayload (fromBase64Url payload) with
    | none => .error .tokenInvalid
    | some parsed =>
      if parsed.e ≤ nowSeconds then .error .tokenExpired
      else .ok ⟨fileSetId, parsed.u, parsed.s, parsed.e⟩
  | _ => .error .tokenInvalid

section

variable {us vs : Units} {u : Nat}

theorem codePoints_single (h : ∀ u ∈ us, isHighSurrogate u = false) : codePoints us = us.map .unit := by
  fun_induction codePoints us with
  | case1 => rfl
  | case2 u => rfl
  | case3 u v us hpair ih => exact absurd hpair.1 (by simp [h u])
  | case4 u v us hpair ih => rw [ih fun w hw => h w (List.mem_cons_of_mem _ hw)]; rfl

theorem codePoints_ascii (h : IsAscii us) : codePoints us = us.map .unit :=
  codePoints_single fun u hu => IsAscii.not_high (h u hu)

theorem utf8_ascii (h : IsAscii us) : utf8 us = us.map UInt8.ofNat := by
  rw [utf8, codePoints_ascii h, List.flatMap_map]
  induction us with
  | nil => rfl
  | cons u us ih =>
    obtain ⟨hu, hus⟩ := List.forall_mem_cons.mp h
    rw [List.flatMap_cons, ih hus]
    simp [codePointBytes, hu]

def isIdUnit (u : Nat) : Bool :=
  0x41 ≤ u && u ≤ 0x5a || 0x61 ≤ u && u ≤ 0x7a || 0x30 ≤ u && u ≤ 0x39 || u = 0x2d || u = 0x5f

theorem isIdUnit_lt (h : isIdUnit u = true) : u < 0x80 := by
  simp [isIdUnit] at h
  omega

theorem quote_idUnit (h : isIdUnit u = true) : (CodePoint.unit u).quote = [u] := by
  have hshort : shortEscape? u = none := by
    simp [isIdUnit] at h
    simp only [shortEscape?]
    split_ifs <;> first | rfl | omega
  have hplain : isEscaped u = false := by
    simp [isIdUnit] at h
    simp [isEscaped, isHighSurrogate, isLowSurrogate]
    omega
  simp [CodePoint.quote, hshort, hplain]

theorem quote_id (h : ∀ u ∈ us, isIdUnit u = true) : quote us = 0x22 :: us ++ [0x22] := by
  have hascii : IsAscii us := fun u hu => isIdUnit_lt (h u hu)
  rw [quote, codePoints_ascii hascii, List.flatMap_map]
  congr 2
  induction us with
  | nil => rfl
  | cons u us ih =>
    obtain ⟨hu, hus⟩ := List.forall_mem_cons.mp h
    simp only [List.flatMap_cons, ih hus fun u hu => isIdUnit_lt (hus u hu), quote_idUnit hu]
    rfl

theorem digitsOf_ascii (n : Nat) : IsAscii (digitsOf n) := fun u hu => by
  have := isDigit_of_mem_digitsOf hu
  simp [isDigit] at this
  omega

theorem digitsOf_length {n k : Nat} (hk : 0 < k) (h : n < 10 ^ k) : (digitsOf n).length ≤ k := by
  rw [digitsOf, List.length_map]
  exact (Nat.length_toDigits_le_iff (by decide) hk).mpr h

end

structure GeneratedId (id : Units) : Prop where
  ne_nil : id ≠ []
  plain : ∀ u ∈ id, isIdUnit u = true
  length_le : id.length ≤ 64

structure Mint where
  clientInstanceId : Units
  claims : AppContentClaims
  viewer : GeneratedId claims.viewerId
  pageSession : GeneratedId claims.pageSessionId
  expires_pos : 0 < claims.expiresAt
  expires_lt : claims.expiresAt < 2 ^ 53

section

variable {P : ContentPlatform} {key : List UInt8} {mint other : Mint}

def Mint.text (mint : Mint) : Units := macText mint.clientInstanceId mint.claims.fileSetId mint.claims.payload

def Mint.token (P : ContentPlatform) (key : List UInt8) (mint : Mint) : Units :=
  mintAppContentToken P key mint.clientInstanceId mint.claims

def ContentPlatform.Carries (P : ContentPlatform) (mint : Mint) : Prop :=
  P.readPayload (utf8 mint.claims.json) = some ⟨mint.claims.viewerId, mint.claims.pageSessionId, mint.claims.expiresAt⟩

theorem json_ascii (mint : Mint) : IsAscii mint.claims.json ∧ mint.claims.json.length ≤ 170 := by
  have hid {id : Units} (h : GeneratedId id) : IsAscii (quote id) ∧ (quote id).length ≤ 66 := by
    rw [quote_id h.plain]
    have hlength := h.length_le
    constructor
    · intro u hu
      simp only [List.cons_append, List.mem_cons, List.mem_append, List.not_mem_nil, or_false] at hu
      obtain rfl | hu | rfl := hu
      · decide
      · exact isIdUnit_lt (h.plain u hu)
      · decide
    · simp
      omega
  obtain ⟨hviewer, hviewer_length⟩ := hid mint.viewer
  obtain ⟨hsession, hsession_length⟩ := hid mint.pageSession
  have hdigits := digitsOf_length (k := 16) (by decide) (mint.expires_lt.trans (by decide))
  have hmarks : IsAscii (ascii "\x7b\"u\":") ∧ IsAscii (ascii ",\"s\":") ∧ IsAscii (ascii ",\"e\":") ∧
      IsAscii (ascii "\x7d") := by
    unfold IsAscii
    decide
  constructor
  · intro u hu
    simp only [AppContentClaims.json, List.mem_append] at hu
    obtain (((((hu | hu) | hu) | hu) | hu) | hu) | hu := hu
    · exact hmarks.1 u hu
    · exact hviewer u hu
    · exact hmarks.2.1 u hu
    · exact hsession u hu
    · exact hmarks.2.2.1 u hu
    · exact digitsOf_ascii _ u hu
    · exact hmarks.2.2.2 u hu
  · simp [AppContentClaims.json, ascii]
    omega

theorem fromBase64Url_toBase64Url (bytes : List UInt8) : fromBase64Url (toBase64Url bytes) = bytes := by
  have hchars : (toBase64Url bytes).map Char.ofNat = Base64Url.encode bytes := by
    rw [toBase64Url, List.map_map]
    exact (List.map_congr_left fun c _ => Char.ofNat_toNat c).trans (List.map_id _)
  rw [fromBase64Url, hchars, Base64Url.decode_encode]

theorem dot_not_mem (bytes : List UInt8) : dot ∉ toBase64Url bytes := fun h => by
  obtain ⟨c, hc, hdot⟩ := List.mem_map.mp h
  have hmem := Base64Url.mem_encode hc
  obtain rfl : c = '.' := Char.toNat_inj.mp hdot
  exact absurd hmem (by decide)

theorem toBase64Url_ne_nil {bytes : List UInt8} (h : bytes ≠ []) : toBase64Url bytes ≠ [] := by
  simpa [toBase64Url] using Base64Url.encode_ne_nil h

theorem macText_inj {i f p i' f' p' : Units} (h : macText i f p = macText i' f' p') : i = i' ∧ f = f' ∧ p = p' := by
  simp only [macText, List.append_assoc] at h
  have h := List.append_cancel_left (List.append_cancel_left (List.append_cancel_left h))
  obtain ⟨hi, h⟩ := quote_inj h
  obtain ⟨hf, h⟩ := quote_inj (List.append_cancel_left h)
  exact ⟨hi, hf, (quote_inj (List.append_cancel_left h)).1⟩

theorem token_length (mint : Mint) : (mint.token P key).length ≤ appContentTokenMaxChars := by
  obtain ⟨hascii, hjson⟩ := json_ascii mint
  have hpayload := Base64Url.length_encode_le (utf8 mint.claims.json)
  have hmac := Base64Url.length_encode_le (P.mac key mint.clientInstanceId mint.claims.fileSetId mint.claims.payload)
  rw [utf8_ascii hascii, List.length_map] at hpayload
  rw [ContentPlatform.mac, P.hmac_length] at hmac
  simp only [Mint.token, mintAppContentToken, AppContentClaims.payload, toBase64Url, List.length_append,
    List.length_cons, List.length_map, appContentTokenMaxChars, utf8_ascii hascii, ContentPlatform.mac] at hpayload hmac ⊢
  omega

theorem token_split (mint : Mint) : (mint.token P key).splitOn dot =
    [mint.claims.payload, toBase64Url (P.hmac key mint.text)] := by
  have hpayload : dot ∉ mint.claims.payload := dot_not_mem _
  rw [Mint.token, mintAppContentToken, List.splitOn_append_cons_self_of_not_mem hpayload,
    List.splitOn_eq_singleton (dot_not_mem _)]
  rfl

theorem payload_ne_nil (mint : Mint) : mint.claims.payload ≠ [] := by
  refine toBase64Url_ne_nil ?_
  rw [utf8_ascii (json_ascii mint).1]
  simp [AppContentClaims.json, ascii]

theorem hmac_ne_nil (text : Units) : P.hmac key text ≠ [] := fun h => by
  have hlength := P.hmac_length key text
  rw [h] at hlength
  cases hlength

/-- An ideal MAC, for one token: a segment that is the MAC of a text is the MAC of a text that was
minted, and the MACs of two such texts differ. -/
structure IdealMac (P : ContentPlatform) (key : List UInt8) (mints : List Mint) (token : Units) : Prop where
  unforged : ∀ segment ∈ token.splitOn dot, ∀ text, fromBase64Url segment = P.hmac key text →
    ∃ mint ∈ mints, text = mint.text
  distinct : ∀ mint ∈ mints, ∀ other ∈ mints, P.hmac key mint.text = P.hmac key other.text → mint.text = other.text

variable {mints : List Mint} {token token' instanceId fileSetId instanceId' fileSetId' : Units} {now now' : Nat}
  {claims : AppContentClaims}

theorem checkAppContentToken_ok : checkAppContentToken P key instanceId fileSetId token now = .ok claims ↔
    token.length ≤ appContentTokenMaxChars ∧ ∃ payload signature, token.splitOn dot = [payload, signature] ∧
      (payload ≠ [] ∧ signature ≠ []) ∧ fromBase64Url signature = P.mac key instanceId fileSetId payload ∧
      toBase64Url (fromBase64Url signature) = signature ∧
      ∃ parsed, P.readPayload (fromBase64Url payload) = some parsed ∧ now < parsed.e ∧
        claims = ⟨fileSetId, parsed.u, parsed.s, parsed.e⟩ := by
  constructor
  · intro h
    unfold checkAppContentToken at h
    split at h
    · cases h
    · rename_i hlength
      split at h
      · rename_i payload signature hsplit
        dsimp only at h
        split at h
        · cases h
        · rename_i hne
          split at h
          · cases h
          · rename_i hmac
            split at h
            · cases h
            · rename_i parsed hparsed
              split at h
              · cases h
              · rename_i hnow
                obtain ⟨hpayload, hsignature⟩ := not_or.mp hne
                obtain ⟨hgiven, htext⟩ := not_or.mp hmac
                exact ⟨Nat.not_lt.mp hlength, payload, signature, hsplit, ⟨hpayload, hsignature⟩, not_not.mp hgiven,
                  not_not.mp htext, parsed, hparsed, Nat.not_le.mp hnow, (Except.ok.inj h).symm⟩
      · cases h
  · rintro ⟨hlength, payload, signature, hsplit, ⟨hpayload, hsignature⟩, hgiven, htext, parsed, hparsed, hnow, rfl⟩
    rw [hgiven] at htext
    simp [checkAppContentToken, Nat.not_lt.mpr hlength, hsplit, hpayload, hsignature, hgiven, htext, hparsed,
      Nat.not_le.mpr hnow]

theorem check_accepts (hcarries : ∀ mint ∈ mints, P.Carries mint) (hideal : IdealMac P key mints token) :
    checkAppContentToken P key instanceId fileSetId token now = .ok claims ↔ ∃ mint ∈ mints,
      mint.clientInstanceId = instanceId ∧ mint.claims.fileSetId = fileSetId ∧ token = mint.token P key ∧
        now < mint.claims.expiresAt ∧ claims = mint.claims := by
  rw [checkAppContentToken_ok]
  constructor
  · rintro ⟨_, payload, signature, hsplit, _, hgiven, htext, parsed, hparsed, hnow, rfl⟩
    obtain ⟨mint, hmint, hmac⟩ := hideal.unforged signature (by simp [hsplit]) _ hgiven
    obtain ⟨rfl, rfl, rfl⟩ := macText_inj hmac
    rw [AppContentClaims.payload, fromBase64Url_toBase64Url, hcarries mint hmint] at hparsed
    obtain rfl := Option.some.inj hparsed
    refine ⟨mint, hmint, rfl, rfl, ?_, hnow, rfl⟩
    have htoken : [dot].intercalate (token.splitOn dot) = token := List.intercalate_splitOn dot
    rw [hsplit, ← htext, hgiven] at htoken
    rw [← htoken]
    simp [Mint.token, mintAppContentToken]
  · rintro ⟨mint, hmint, rfl, rfl, rfl, hnow, rfl⟩
    refine ⟨token_length mint, _, _, token_split mint, ⟨payload_ne_nil mint, toBase64Url_ne_nil (hmac_ne_nil _)⟩,
      fromBase64Url_toBase64Url _, by rw [fromBase64Url_toBase64Url],
      ⟨mint.claims.viewerId, mint.claims.pageSessionId, mint.claims.expiresAt⟩, ?_, hnow, rfl⟩
    rw [AppContentClaims.payload, fromBase64Url_toBase64Url]
    exact hcarries mint hmint

theorem token_injective (hideal : IdealMac P key mints token) (hcarries : ∀ mint ∈ mints, P.Carries mint)
    (hmint : mint ∈ mints) (hother : other ∈ mints) (h : mint.token P key = other.token P key) :
    mint.clientInstanceId = other.clientInstanceId ∧ mint.claims = other.claims := by
  have hsplit := congrArg (List.splitOn dot) h
  rw [token_split, token_split] at hsplit
  obtain ⟨hpayload, hsignature⟩ := List.cons.inj hsplit
  have hmac := congrArg fromBase64Url (List.cons.inj hsignature).1
  rw [fromBase64Url_toBase64Url, fromBase64Url_toBase64Url] at hmac
  obtain ⟨hinstance, hfileSet, _⟩ := macText_inj (hideal.distinct mint hmint other hother hmac)
  have hbytes := congrArg fromBase64Url hpayload
  rw [AppContentClaims.payload, AppContentClaims.payload, fromBase64Url_toBase64Url, fromBase64Url_toBase64Url] at hbytes
  have hread := (hcarries mint hmint).symm.trans ((congrArg P.readPayload hbytes).trans (hcarries other hother))
  obtain ⟨hviewer, hsession, hexpires⟩ := AppContentPayload.mk.inj (Option.some.inj hread)
  refine ⟨hinstance, ?_⟩
  cases hclaims : mint.claims
  cases hclaims' : other.claims
  simp_all

end

namespace Address

def viewerId : Units := ascii "usr_0b8f6f0e-6f1c-4a53-9a57-2d5a2f4b9c11"

def pageSessionId : Units := ascii "5d0a4d5e-3c3b-4f0e-8b55-7f7f2f6f9a01"

def mint : Mint where
  clientInstanceId := ascii "demo"
  claims := ⟨ascii "fset_9f1b7a34-0c63-4a0e-9d0b-6a4f0f0c2d7e", viewerId, pageSessionId, 1700003600⟩
  viewer := ⟨by decide, by decide, by decide⟩
  pageSession := ⟨by decide, by decide, by decide⟩
  expires_pos := by decide
  expires_lt := by decide

def key : List UInt8 := (List.range 32).map UInt8.ofNat

def signature : List UInt8 :=
  [118, 249, 102, 115, 255, 228, 52, 99, 19, 36, 6, 99, 5, 89, 146, 31, 95, 245, 56, 223, 217, 148, 200, 175, 190, 94,
    171, 168, 64, 31, 145, 20]

def platform : ContentPlatform where
  hmac _ text := if text = mint.text then signature else List.replicate 32 0
  hmac_length _ text := by split <;> rfl
  readPayload _ := some ⟨viewerId, pageSessionId, 1700003600⟩

theorem ideal : IdealMac platform key [mint] (mint.token platform key) where
  unforged segment hsegment text htext := by
    refine ⟨mint, List.mem_singleton_self _, ?_⟩
    by_contra hne
    have hzeros : fromBase64Url segment = List.replicate 32 0 := htext.trans (if_neg hne)
    rw [token_split] at hsegment
    obtain rfl | hsegment := List.mem_cons.mp hsegment
    · rw [AppContentClaims.payload, fromBase64Url_toBase64Url, utf8_ascii (json_ascii mint).1] at hzeros
      have hhead := congrArg List.head? hzeros
      simp [AppContentClaims.json, ascii] at hhead
    · rw [List.mem_singleton.mp hsegment, fromBase64Url_toBase64Url] at hzeros
      have hmac : platform.hmac key mint.text = signature := by simp [platform]
      exact absurd (hmac.symm.trans hzeros) (by decide)
  distinct m hm m' hm' _ := by
    rw [List.mem_singleton.mp hm, List.mem_singleton.mp hm']

end Address

end Catalyst.Pages
