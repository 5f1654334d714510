import Catalyst.Web.UrlSafety
import Mathlib

/-!
# Every spelling is read

The parsers of the address checks read each spelling of an address as that
address, so an address that passes is not blocked however it is written.
-/

namespace Catalyst.Web

open Library

theorem decimal_digit (n : Nat) :
    ∀ c ∈ Nat.toDigits 10 n, c.isDigit = true ∧ isSpace c = false ∧ c ≠ '-' ∧ c ≠ '+' ∧ c ≠ '.' :=
  toDigits_forall (by decide) (by decide) n

theorem parseInt_toDigits (n : Nat) : parseInt (Nat.toDigits 10 n) = some (n : Int) := by
  obtain ⟨c, t, ht⟩ := List.exists_cons_of_ne_nil (Nat.toDigits_ne_nil (b := 10) (n := n))
  obtain ⟨_, hspace, hminus, hplus, _⟩ := decimal_digit n c (ht ▸ List.mem_cons_self)
  have hdigits : (Nat.toDigits 10 n).takeWhile Char.isDigit = Nat.toDigits 10 n :=
    List.takeWhile_eq_self_iff.mpr fun c hc => (decimal_digit n c hc).1
  have hskip : (Nat.toDigits 10 n).dropWhile isSpace = Nat.toDigits 10 n := by
    rw [ht, List.dropWhile_cons_of_neg (by simp [hspace])]
  have hhead : (Nat.toDigits 10 n).head? = some c := by rw [ht, List.head?_cons]
  simp [parseInt, hskip, hhead, hminus, hplus, hdigits, Nat.ofDigitChars_ten_toDigits]

theorem decimal_not_dot (n : Nat) : '.' ∉ Nat.toDigits 10 n :=
  fun h => (decimal_digit n '.' h).2.2.2.2 rfl

theorem parseIpv4Octets_text (a : Ipv4) : parseIpv4Octets a.text = some a.octets := by
  have hsplit : a.text.splitOn '.' = a.octets.map (Nat.toDigits 10) := by
    refine splitOn_joinWith ?_ (by simp [Ipv4.octets])
    intro t ht
    obtain ⟨n, hn, rfl⟩ := List.mem_map.mp ht
    exact decimal_not_dot n
  have hints : (a.octets.map (Nat.toDigits 10)).mapM parseInt = some (a.octets.map Int.ofNat) := by
    simp [Ipv4.octets, parseInt_toDigits]
  have hrange : ∀ octet ∈ a.octets.map Int.ofNat, 0 ≤ octet ∧ octet ≤ 255 := by
    intro octet hm
    obtain ⟨n, hn, rfl⟩ := List.mem_map.mp hm
    have := a.octet_lt n hn
    exact ⟨Int.natCast_nonneg n, by simp; omega⟩
  have hback : (a.octets.map Int.ofNat).map Int.toNat = a.octets := by
    rw [List.map_map]
    exact List.map_id _
  have hlength : (a.octets.map (Nat.toDigits 10)).length = 4 := rfl
  simp only [parseIpv4Octets, hsplit, hlength, hints, guard, if_true, Option.bind_eq_bind,
    Option.pure_def, Option.bind_some]
  rw [if_pos hrange]
  simp [hback]

def LowerHex (t : Text) : Prop := ∀ c ∈ t, c ∈ hexDigits ∨ c = '.' ∨ c = ':'

theorem lowerHex_toLower (h : Ipv6Spells true t gs) : LowerHex (Text.toLower t) := by
  intro c hc
  obtain ⟨c', hc', rfl⟩ := List.mem_map.mp hc
  rcases h.mem c' hc' with hc | rfl | rfl
  · exact .inl hc
  · exact .inr (.inl rfl)
  · exact .inr (.inr rfl)

theorem stripBrackets_lowerHex (h : LowerHex t) : stripBrackets t = t := by
  have hhead : t.head? ≠ some '[' := fun he => absurd (h '[' (List.mem_of_head? he)) (by decide)
  have hlast : t.getLast? ≠ some ']' := fun he => absurd (h ']' (List.mem_of_getLast? he)) (by decide)
  simp [stripBrackets, hhead, hlast]

theorem shiftLeft_or (h : n < 256) : (m <<< 8) ||| n = 256 * m + n := by
  rw [← Nat.shiftLeft_add_eq_or_of_lt (i := 8) h, Nat.shiftLeft_eq, Nat.mul_comm]

theorem expandEmbeddedIpv4_spells (h : Ipv6Spells true t gs) (hl : LowerHex t) :
    Ipv6Spells false (expandEmbeddedIpv4 t) gs ∧ LowerHex (expandEmbeddedIpv4 t) := by
  rcases h.cases_dotted with ⟨hs, hdot⟩ | ⟨before, a, rfl, hs⟩
  · rw [expandEmbeddedIpv4, if_pos hdot]
    exact ⟨hs, hl⟩
  · have hcolon : ':' ∉ a.text := by
      intro hc
      rcases a.mem_text hc with hc | hc
      · cases hc
      · exact absurd hc (by decide)
    have hdot : '.' ∈ a.text := by
      rw [Ipv4.text, Ipv4.octets, List.map_cons, List.map_cons, joinWith_cons (by simp)]
      simp
    have hex : expandEmbeddedIpv4 (before ++ ':' :: a.text) =
        before ++ ':' :: (Nat.toDigits 16 a.high ++ ':' :: Nat.toDigits 16 a.low) := by
      have hhigh := shiftLeft_or (m := a.first.toNat) a.second.toNat_lt_size
      have hlow := shiftLeft_or (m := a.third.toNat) a.fourth.toNat_lt_size
      rw [expandEmbeddedIpv4, if_neg (by simp [hdot]), splitLast_append hcolon]
      simp only [parseIpv4Octets_text]
      simp [Ipv4.octets, Ipv4.high, Ipv4.low, hhigh, hlow]
    have hfirst := a.first.toNat_lt_size
    have hsecond := a.second.toNat_lt_size
    have hthird := a.third.toNat_lt_size
    have hfourth := a.fourth.toNat_lt_size
    rw [hex]
    refine ⟨hs _ _ (hexGroup_toDigits ?_) (hexGroup_toDigits ?_), fun c hc => ?_⟩
    · simp only [Ipv4.high, UInt8.size] at *
      omega
    · simp only [Ipv4.low, UInt8.size] at *
      omega
    · simp only [List.mem_append, List.mem_cons] at hc
      rcases hc with hc | hc | hc | hc | hc
      · exact hl c (List.mem_append_left _ hc)
      · exact .inr (.inr hc)
      · exact .inl (toDigits_mem_hexDigits _ c hc)
      · exact .inr (.inr hc)
      · exact .inl (toDigits_mem_hexDigits _ c hc)

theorem parseIpv6Group_hex (h : HexGroup t g) (hl : LowerHex t) : parseIpv6Group t = some g := by
  have hall : t.all (· ∈ hexDigits) := by
    rw [List.all_eq_true]
    intro c hc
    rcases hl c hc with hm | rfl | rfl
    · simpa using hm
    · exact absurd (h.mem _ hc) (by decide)
    · exact absurd (h.mem _ hc) (by decide)
  rw [parseIpv6Group, if_pos ⟨h.nonempty, h.length_le, hall⟩, h.value]

theorem parseIpv6Groups_joinWith (h : Pieces false ts gs) (hl : ∀ t ∈ ts, LowerHex t) :
    parseIpv6Groups (joinWith ':' ts) = some gs := by
  have hmap : ts.mapM parseIpv6Group = some gs := by
    generalize hd : false = dotted at h
    induction h with
    | nil => rfl
    | group hg _ ih =>
      obtain ⟨ht, hts⟩ := List.forall_mem_cons.mp hl
      simp [parseIpv6Group_hex hg ht, ih hts hd]
    | ipv4 => cases hd
  by_cases hts : ts = []
  · subst hts
    exact hmap
  · have hsplit := splitOn_joinWith (fun t ht => (h.not_colon t ht).1) hts
    have hne : joinWith ':' ts ≠ [] := by
      intro he
      rw [he] at hsplit
      subst hsplit
      exact (h.not_colon [] (by simp)).2 rfl
    rw [parseIpv6Groups, if_neg hne, hsplit, hmap]

theorem groupBytes_eq (h : ∀ g ∈ gs, g < 65536) :
    gs.flatMap (fun group => [(group >>> 8) &&& 0xff, group &&& 0xff]) = groupBytes gs := by
  rw [List.flatMap_def, groupBytes, List.flatMap_def]
  refine congrArg List.flatten (List.map_congr_left fun g hg => ?_)
  have hlt := h g hg
  have hmask : ∀ n : Nat, n &&& 0xff = n % 256 := fun n => Nat.and_two_pow_sub_one_eq_mod n 8
  rw [hmask, hmask, Nat.shiftRight_eq_div_pow, Nat.mod_eq_of_lt (a := g / 2 ^ 8) (by omega)]

theorem parseIpv6Bytes_spells (h : Ipv6Spells true t gs) : parseIpv6Bytes t = some (groupBytes gs) := by
  have hl := lowerHex_toLower h
  obtain ⟨hs, hl'⟩ := expandEmbeddedIpv4_spells (t := Text.toLower t) h.toLower hl
  have hpart : ∀ ts : List Text, (∀ c ∈ joinWith ':' ts, c ∈ hexDigits ∨ c = '.' ∨ c = ':') →
      ∀ t ∈ ts, LowerHex t := by
    intro ts h t ht c hc
    exact h c (mem_joinWith_of_mem ht hc)
  simp only [parseIpv6Bytes, stripBrackets_lowerHex hl]
  generalize expandEmbeddedIpv4 (Text.toLower t) = text at hs hl'
  cases hs with
  | full hp hlen =>
    rw [splitDouble_joinWith hp.not_colon]
    have hgroups := parseIpv6Groups_joinWith hp (hpart _ hl')
    have hnone : parseIpv6Groups [] = some [] := rfl
    simpa [hgroups, hnone, hlen, guard] using groupBytes_eq hp.lt
  | @compressed ts left us right hleft hright hlen =>
    rw [splitDouble_compressed hleft.not_colon hright.not_colon]
    have hleftGroups := parseIpv6Groups_joinWith hleft
      (hpart _ fun c hc => hl' c (List.mem_append_left _ hc))
    have hrightGroups := parseIpv6Groups_joinWith hright
      (hpart _ fun c hc => hl' c (by simp [hc]))
    have hmissing : ((8 : Int) - left.length - right.length).toNat = 8 - left.length - right.length := by
      omega
    have hpos : (1 : Int) ≤ 8 - left.length - right.length := by omega
    have htotal : (left ++ List.replicate (8 - left.length - right.length) 0 ++ right).length = 8 := by
      simp only [List.length_append, List.length_replicate]
      omega
    have hlt : ∀ g ∈ left ++ List.replicate (8 - left.length - right.length) 0 ++ right, g < 65536 := by
      intro g hg
      rcases List.mem_append.mp hg with hg | hg
      · rcases List.mem_append.mp hg with hg | hg
        · exact hleft.lt g hg
        · simp [List.eq_of_mem_replicate hg]
      · exact hright.lt g hg
    have hbytes := groupBytes_eq hlt
    simp only [List.length_cons, List.length_nil, List.getD_cons_zero, List.getD_cons_succ,
      hleftGroups, hrightGroups, hmissing, htotal, guard, Option.bind_eq_bind, Option.bind_some,
      Option.pure_def, hbytes]
    simp [hpos]

def mappedGroups (a : Ipv4) : List Nat := [0, 0, 0, 0, 0, 0xffff, a.high, a.low]

structure NotBlocked (t : Text) : Prop where
  ipv4 : ∀ a : Ipv4, t = a.text → isBlockedOctets a.octets = false
  ipv6 : ∀ groups, Ipv6Spells true t groups → isBlockedIpv6Bytes (groupBytes groups) = false
  mapped : ∀ a : Ipv4, Ipv6Spells true t (mappedGroups a) → isBlockedOctets a.octets = false

theorem isBlockedIpv4Address_text (a : Ipv4) : isBlockedIpv4Address a.text = isBlockedOctets a.octets := by
  simp [isBlockedIpv4Address, parseIpv4Octets_text]

theorem getIpv4MappedAddress_mapped (a : Ipv4) :
    getIpv4MappedAddress (groupBytes (mappedGroups a)) = some a.text := by
  have hfirst := a.first.toNat_lt_size
  have hsecond := a.second.toNat_lt_size
  have hthird := a.third.toNat_lt_size
  have hfourth := a.fourth.toNat_lt_size
  simp only [UInt8.size] at *
  have hhigh : [a.high / 256, a.high % 256] = [a.first.toNat, a.second.toNat] := by
    simp only [Ipv4.high, List.cons.injEq, and_true]
    omega
  have hlow : [a.low / 256, a.low % 256] = [a.third.toNat, a.fourth.toNat] := by
    simp only [Ipv4.low, List.cons.injEq, and_true]
    omega
  have hbytes : groupBytes (mappedGroups a) =
      [0, 0, 0, 0, 0, 0, 0, 0, 0, 0, 255, 255] ++ a.octets := by
    simp only [groupBytes, mappedGroups, List.flatMap_cons, List.flatMap_nil, hhigh, hlow]
    rfl
  rw [hbytes]
  simp [getIpv4MappedAddress, Ipv4.text, Ipv4.octets]

theorem notBlocked_of_passes {P : Platform} {t : Text} (h : isBlockedIpAddress P t = false) :
    P.isIP t ≠ .none ∧ NotBlocked t := by
  have h6 : ∀ groups, Ipv6Spells true t groups → isBlockedIpv6Bytes (groupBytes groups) = false := by
    intro groups hs
    rw [isBlockedIpAddress, P.isIP_ipv6 hs] at h
    simpa [isBlockedIpv6Address, parseIpv6Bytes_spells hs] using h
  refine ⟨fun hn => ?_, ?_, h6, ?_⟩
  · rw [isBlockedIpAddress, hn] at h
    cases h
  · rintro a rfl
    rw [isBlockedIpAddress, P.isIP_ipv4] at h
    exact isBlockedIpv4Address_text a ▸ h
  · intro a hs
    have hb := h6 _ hs
    rw [isBlockedIpv6Bytes, getIpv4MappedAddress_mapped] at hb
    simp only [Option.any_some, isBlockedIpv4Address_text, Bool.or_eq_false_iff] at hb
    exact hb.1.1.1.1.1.1

end Catalyst.Web
