import Mathlib.Data.List.Induction

/-!
# Texts of IP addresses

An IPv4 address has one spelling, dotted decimal. An IPv6 address has many: hex
groups in either case and with leading zeros, one run of zero groups left out,
and the last two groups as an IPv4 address. A text with a zone is not one of
them.
-/

namespace Catalyst.Library

/-- What holds of all characters of a text is decided along the text, not along all characters. -/
instance (priority := 2000) decidableForallMem {p : Char → Prop} [DecidablePred p] (t : List Char) :
    Decidable (∀ c, c ∈ t → p c) := List.decidableBAll p t

-- -----------------
-- Joining and splitting
-- -----------------

def joinWith (sep : Char) (ts : List (List Char)) : List Char := [sep].intercalate ts

@[simp] theorem joinWith_nil : joinWith sep [] = [] := rfl

@[simp] theorem joinWith_singleton : joinWith sep [t] = t := List.intercalate_singleton

theorem joinWith_cons (hts : ts ≠ []) : joinWith sep (t :: ts) = t ++ sep :: joinWith sep ts := by
  simp [joinWith, List.intercalate_cons_of_ne_nil hts]

theorem joinWith_append (hts : ts ≠ []) (hus : us ≠ []) :
    joinWith sep (ts ++ us) = joinWith sep ts ++ sep :: joinWith sep us := by
  induction ts with
  | nil => exact absurd rfl hts
  | cons t ts ih =>
    by_cases h : ts = []
    · subst h
      simpa using joinWith_cons hus
    · have hne : ts ++ us ≠ [] := fun he => h (List.append_eq_nil_iff.mp he).1
      rw [List.cons_append, joinWith_cons hne, joinWith_cons h, ih h, List.append_assoc,
        List.cons_append]

theorem map_joinWith {f : Char → Char} (hf : f sep = sep) (ts : List (List Char)) :
    (joinWith sep ts).map f = joinWith sep (ts.map (·.map f)) := by
  induction ts with
  | nil => rfl
  | cons t ts ih =>
    by_cases h : ts = []
    · subst h
      simp
    · have hne : ts.map (·.map f) ≠ [] := by simpa using h
      rw [joinWith_cons h, List.map_cons, joinWith_cons hne, List.map_append, List.map_cons, hf, ih]

theorem mem_joinWith (h : c ∈ joinWith sep ts) : c = sep ∨ ∃ t ∈ ts, c ∈ t := by
  induction ts with
  | nil => cases h
  | cons t ts ih =>
    by_cases hts : ts = []
    · subst hts
      exact .inr ⟨t, List.mem_singleton_self t, by simpa using h⟩
    · rw [joinWith_cons hts, List.mem_append, List.mem_cons] at h
      rcases h with h | rfl | h
      · exact .inr ⟨t, List.mem_cons_self, h⟩
      · exact .inl rfl
      · exact (ih h).imp_right fun ⟨u, hu, hc⟩ => ⟨u, List.mem_cons_of_mem _ hu, hc⟩

theorem mem_joinWith_of_mem (ht : t ∈ ts) (hc : c ∈ t) : c ∈ joinWith sep ts := by
  obtain ⟨before, after, rfl⟩ := List.append_of_mem ht
  by_cases hb : before = []
  · subst hb
    by_cases ha : after = []
    · subst ha
      simpa using hc
    · rw [List.nil_append, joinWith_cons ha]
      exact List.mem_append_left _ hc
  · rw [joinWith_append hb (List.cons_ne_nil _ _)]
    refine List.mem_append_right _ (List.mem_cons_of_mem _ ?_)
    by_cases ha : after = []
    · subst ha
      simpa using hc
    · rw [joinWith_cons ha]
      exact List.mem_append_left _ hc

theorem splitOn_joinWith (hts : ∀ t ∈ ts, sep ∉ t) (hne : ts ≠ []) :
    (joinWith sep ts).splitOn sep = ts := List.splitOn_intercalate sep hts hne

def splitDouble (sep : Char) : List Char → List (List Char)
  | [] => [[]]
  | [c] => [[c]]
  | c :: d :: rest =>
    if c = sep ∧ d = sep then [] :: splitDouble sep rest
    else (splitDouble sep (d :: rest)).modifyHead (c :: ·)

theorem splitDouble_cons (hc : c ≠ sep) (rest : List Char) :
    splitDouble sep (c :: rest) = (splitDouble sep rest).modifyHead (c :: ·) := by
  cases rest with
  | nil => rfl
  | cons d rest => rw [splitDouble, if_neg fun h => hc h.1]

theorem splitDouble_append (ht : sep ∉ t) (rest : List Char) :
    splitDouble sep (t ++ rest) = (splitDouble sep rest).modifyHead (t ++ ·) := by
  induction t with
  | nil => cases h : splitDouble sep rest <;> simp [h]
  | cons c t ih =>
    have hc : c ≠ sep := fun h => ht (h ▸ List.mem_cons_self)
    rw [List.cons_append, splitDouble_cons hc, ih fun h => ht (List.mem_cons_of_mem _ h),
      List.modifyHead_modifyHead]
    rfl

theorem splitDouble_joinWith_append (hts : ∀ t ∈ ts, sep ∉ t ∧ t ≠ []) (hne : ts ≠ [])
    (rest : List Char) :
    splitDouble sep (joinWith sep ts ++ rest) =
      (splitDouble sep rest).modifyHead (joinWith sep ts ++ ·) := by
  induction ts with
  | nil => exact absurd rfl hne
  | cons t ts ih =>
    obtain ⟨ht, -⟩ := hts t List.mem_cons_self
    by_cases h : ts = []
    · subst h
      simpa using splitDouble_append ht rest
    · have ih := ih (fun u hu => hts u (List.mem_cons_of_mem _ hu)) h
      obtain ⟨u, us, rfl⟩ := List.exists_cons_of_ne_nil h
      obtain ⟨hu, hune⟩ := hts u (by simp)
      obtain ⟨c, u, rfl⟩ := List.exists_cons_of_ne_nil hune
      have hc : c ≠ sep := fun he => hu (he ▸ List.mem_cons_self)
      have hstart : ∃ tail, joinWith sep ((c :: u) :: us) = c :: tail := by
        by_cases hus : us = []
        · exact ⟨u, by simp [hus]⟩
        · exact ⟨_, by rw [joinWith_cons hus]; rfl⟩
      obtain ⟨tail, htail⟩ := hstart
      rw [joinWith_cons h, List.append_assoc, splitDouble_append ht, htail, List.cons_append,
        List.cons_append, splitDouble, if_neg fun he => hc he.2, ← List.cons_append, ← htail, ih,
        List.modifyHead_modifyHead, List.modifyHead_modifyHead]
      congr 1
      funext x
      simp

theorem splitDouble_joinWith (hts : ∀ t ∈ ts, sep ∉ t ∧ t ≠ []) :
    splitDouble sep (joinWith sep ts) = [joinWith sep ts] := by
  by_cases h : ts = []
  · subst h
    rfl
  · simpa [splitDouble] using splitDouble_joinWith_append hts h []

theorem splitDouble_compressed (hts : ∀ t ∈ ts, sep ∉ t ∧ t ≠ []) (hus : ∀ t ∈ us, sep ∉ t ∧ t ≠ []) :
    splitDouble sep (joinWith sep ts ++ sep :: sep :: joinWith sep us) =
      [joinWith sep ts, joinWith sep us] := by
  have hrest : splitDouble sep (sep :: sep :: joinWith sep us) = [[], joinWith sep us] := by
    rw [splitDouble, if_pos ⟨rfl, rfl⟩, splitDouble_joinWith hus]
  by_cases h : ts = []
  · subst h
    simpa using hrest
  · rw [splitDouble_joinWith_append hts h, hrest]
    simp

def splitLast (sep : Char) (t : List Char) : Option (List Char × List Char) :=
  let last := (t.reverse.takeWhile (· ≠ sep)).reverse
  if sep ∈ t then some (t.take (t.length - last.length - 1), last) else none

theorem splitLast_append (ht : sep ∉ last) (before : List Char) :
    splitLast sep (before ++ sep :: last) = some (before, last) := by
  have hrev : ((before ++ sep :: last).reverse.takeWhile (· ≠ sep)).reverse = last := by
    have hall : ∀ c ∈ last.reverse, (decide (c ≠ sep)) = true := by
      intro c hc
      simpa using fun he : c = sep => ht (he ▸ List.mem_reverse.mp hc)
    rw [List.reverse_append, List.reverse_cons, List.append_assoc, List.takeWhile_append_of_pos hall]
    simp
  rw [splitLast, if_pos (by simp)]
  have hlength : (before ++ sep :: last).length - last.length - 1 = before.length := by
    simp only [List.length_append, List.length_cons]
    omega
  simp only [hrev, hlength, List.take_left]

def hexDigits : List Char :=
  ['0', '1', '2', '3', '4', '5', '6', '7', '8', '9', 'a', 'b', 'c', 'd', 'e', 'f']

def hexDigit? (c : Char) : Option Nat := hexDigits.idxOf? c.toLower

def hexValue? (t : List Char) : Option Nat :=
  t.foldlM (fun n c => (hexDigit? c).map (16 * n + ·)) 0

theorem mem_hexDigits_of_hexDigit? (h : hexDigit? c = some d) : c.toLower ∈ hexDigits := by
  by_contra hc
  rw [hexDigit?, List.idxOf?_eq_none_iff.mpr (by simpa using hc)] at h
  cases h

theorem toLower_of_mem_hexDigits : ∀ c ∈ hexDigits, c.toLower = c := by decide

theorem hexDigit?_toLower (h : hexDigit? c = some d) : hexDigit? c.toLower = some d := by
  rwa [hexDigit?, toLower_of_mem_hexDigits _ (mem_hexDigits_of_hexDigit? h)]

theorem hexDigit?_digitChar : ∀ n < 16, hexDigit? n.digitChar = some n := by decide

theorem hexValue?_concat (t : List Char) :
    hexValue? (t ++ [c]) = (hexValue? t).bind fun n => (hexDigit? c).map (16 * n + ·) := by
  simp [hexValue?, List.foldlM_append]

theorem mem_hexDigits_of_hexValue? (h : hexValue? t = some n) : ∀ c ∈ t, c.toLower ∈ hexDigits := by
  induction t using List.reverseRecOn generalizing n with
  | nil => simp
  | append_singleton t c ih =>
    rw [hexValue?_concat] at h
    obtain ⟨m, hm, hc⟩ := Option.bind_eq_some_iff.mp h
    obtain ⟨d, hd, -⟩ := Option.map_eq_some_iff.mp hc
    intro x hx
    rcases List.mem_append.mp hx with hx | hx
    · exact ih hm x hx
    · obtain rfl := List.mem_singleton.mp hx
      exact mem_hexDigits_of_hexDigit? hd

theorem hexValue?_toLower (h : hexValue? t = some n) : hexValue? (t.map Char.toLower) = some n := by
  induction t using List.reverseRecOn generalizing n with
  | nil => exact h
  | append_singleton t c ih =>
    rw [hexValue?_concat] at h
    obtain ⟨m, hm, hc⟩ := Option.bind_eq_some_iff.mp h
    obtain ⟨d, hd, hn⟩ := Option.map_eq_some_iff.mp hc
    rw [List.map_append, List.map_singleton, hexValue?_concat, ih hm, hexDigit?_toLower hd]
    simpa using hn

theorem hexValue?_toDigits (n : Nat) : hexValue? (Nat.toDigits 16 n) = some n := by
  induction n using Nat.strongRecOn with
  | ind n ih =>
    rw [Nat.toDigits_eq_if (by decide)]
    split
    · rename_i h
      simp [hexValue?, hexDigit?_digitChar n h]
    · rename_i h
      have hlt : n / 16 < n := Nat.div_lt_self (by omega) (by decide)
      rw [hexValue?_concat, ih _ hlt, hexDigit?_digitChar _ (Nat.mod_lt n (by decide))]
      simp [Nat.div_add_mod]

structure Ipv4 where
  first : UInt8
  second : UInt8
  third : UInt8
  fourth : UInt8
  deriving DecidableEq

def Ipv4.octets (a : Ipv4) : List Nat :=
  [a.first.toNat, a.second.toNat, a.third.toNat, a.fourth.toNat]

def Ipv4.text (a : Ipv4) : List Char := joinWith '.' (a.octets.map (Nat.toDigits 10))

def Ipv4.high (a : Ipv4) : Nat := 256 * a.first.toNat + a.second.toNat

def Ipv4.low (a : Ipv4) : Nat := 256 * a.third.toNat + a.fourth.toNat

structure HexGroup (t : List Char) (group : Nat) : Prop where
  nonempty : t ≠ []
  length_le : t.length ≤ 4
  value : hexValue? t = some group
  lt : group < 65536

inductive Pieces : Bool → List (List Char) → List Nat → Prop
  | nil : Pieces dotted [] []
  | group : HexGroup t g → Pieces dotted ts gs → Pieces dotted (t :: ts) (g :: gs)
  | ipv4 (a : Ipv4) : Pieces true [a.text] [a.high, a.low]

inductive Ipv6Spells (dotted : Bool) : List Char → List Nat → Prop
  | full : Pieces dotted ts groups → groups.length = 8 → Ipv6Spells dotted (joinWith ':' ts) groups
  | compressed : Pieces false ts left → Pieces dotted us right → left.length + right.length ≤ 7 →
      Ipv6Spells dotted (joinWith ':' ts ++ ':' :: ':' :: joinWith ':' us)
        (left ++ List.replicate (8 - left.length - right.length) 0 ++ right)

def groupBytes (groups : List Nat) : List Nat := groups.flatMap fun g => [g / 256, g % 256]

theorem HexGroup.mem (h : HexGroup t g) : ∀ c ∈ t, c.toLower ∈ hexDigits :=
  mem_hexDigits_of_hexValue? h.value

theorem HexGroup.toLower (h : HexGroup t g) : HexGroup (t.map Char.toLower) g where
  nonempty := by simpa using h.nonempty
  length_le := by simpa using h.length_le
  value := hexValue?_toLower h.value
  lt := h.lt

theorem hexGroup_toDigits (hg : g < 65536) : HexGroup (Nat.toDigits 16 g) g where
  nonempty := Nat.toDigits_ne_nil
  length_le := (Nat.length_toDigits_le_iff (by decide) (by decide)).mpr hg
  value := hexValue?_toDigits g
  lt := hg

theorem toDigits_forall {P : Char → Prop} (hb : 1 < b) (h : ∀ m < b, P m.digitChar) (n : Nat) :
    ∀ c ∈ Nat.toDigits b n, P c := by
  induction n using Nat.strongRecOn with
  | ind n ih =>
    rw [Nat.toDigits_eq_if hb]
    split
    · rename_i hlt
      simpa using h n hlt
    · rename_i hge
      intro c hc
      rcases List.mem_append.mp hc with hc | hc
      · exact ih _ (Nat.div_lt_self (by omega) hb) c hc
      · obtain rfl := List.mem_singleton.mp hc
        exact h _ (Nat.mod_lt n (by omega))

theorem toDigits_mem_hexDigits (n : Nat) : ∀ c ∈ Nat.toDigits 16 n, c ∈ hexDigits :=
  toDigits_forall (by decide) (by decide) n

theorem decimal_digits (n : Nat) : ∀ c ∈ Nat.toDigits 10 n, c ∈ hexDigits :=
  toDigits_forall (by decide) (by decide) n

theorem Ipv4.octet_lt (a : Ipv4) : ∀ n ∈ a.octets, n < 256 := by
  simp only [octets, List.forall_mem_cons, List.not_mem_nil, false_implies, implies_true, and_true]
  exact ⟨a.first.toNat_lt_size, a.second.toNat_lt_size, a.third.toNat_lt_size, a.fourth.toNat_lt_size⟩

theorem Ipv4.mem_text {a : Ipv4} (hc : c ∈ a.text) : c = '.' ∨ c ∈ hexDigits := by
  refine (mem_joinWith hc).imp_right fun ⟨t, ht, hct⟩ => ?_
  obtain ⟨n, hn, rfl⟩ := List.mem_map.mp ht
  exact decimal_digits n c hct

theorem Ipv4.toLower_text (a : Ipv4) : a.text.map Char.toLower = a.text := by
  refine (List.map_congr_left fun c hc => ?_).trans (List.map_id _)
  rcases a.mem_text hc with rfl | hc
  · rfl
  · exact toLower_of_mem_hexDigits c hc

theorem Pieces.mem (h : Pieces false ts gs) : ∀ t ∈ ts, (∀ c ∈ t, c.toLower ∈ hexDigits) ∧ t ≠ [] := by
  generalize hd : false = dotted at h
  induction h with
  | nil => simp
  | group hg _ ih => exact List.forall_mem_cons.mpr ⟨⟨hg.mem, hg.nonempty⟩, ih hd⟩
  | ipv4 => cases hd

theorem Pieces.lt (h : Pieces false ts gs) : ∀ g ∈ gs, g < 65536 := by
  generalize hd : false = dotted at h
  induction h with
  | nil => simp
  | group hg _ ih => exact List.forall_mem_cons.mpr ⟨hg.lt, ih hd⟩
  | ipv4 => cases hd

theorem Pieces.mem_dotted (h : Pieces dotted ts gs) :
    ∀ t ∈ ts, ∀ c ∈ t, c.toLower ∈ hexDigits ∨ c = '.' := by
  induction h with
  | nil => simp
  | group hg _ ih => exact List.forall_mem_cons.mpr ⟨fun c hc => .inl (hg.mem c hc), ih⟩
  | ipv4 a =>
    intro t ht c hc
    obtain rfl := List.mem_singleton.mp ht
    rcases a.mem_text hc with hc | hc
    · exact .inr hc
    · exact .inl ((toLower_of_mem_hexDigits c hc).symm ▸ hc)

theorem Pieces.not_colon (h : Pieces false ts gs) : ∀ t ∈ ts, ':' ∉ t ∧ t ≠ [] := fun t ht =>
  ⟨fun hc => absurd ((h.mem t ht).1 _ hc) (by decide), (h.mem t ht).2⟩

theorem Pieces.not_dot (h : Pieces false ts gs) : '.' ∉ joinWith ':' ts := by
  intro hc
  rcases mem_joinWith hc with hc | ⟨t, ht, hc⟩
  · cases hc
  · exact absurd ((h.mem t ht).1 _ hc) (by decide)

theorem Pieces.length_eq (h : Pieces false ts gs) : ts.length = gs.length := by
  generalize hd : false = dotted at h
  induction h with
  | nil => rfl
  | group _ _ ih => simp [ih hd]
  | ipv4 => cases hd

theorem Pieces.toLower (h : Pieces dotted ts gs) : Pieces dotted (ts.map (·.map Char.toLower)) gs := by
  induction h with
  | nil => exact .nil
  | group hg _ ih => exact .group hg.toLower ih
  | ipv4 a =>
    rw [List.map_singleton, a.toLower_text]
    exact .ipv4 a

theorem Pieces.concat (h : Pieces false ts gs) (hhi : HexGroup hi m) (hlo : HexGroup lo n) :
    Pieces false (ts ++ [hi, lo]) (gs ++ [m, n]) := by
  generalize hd : false = dotted at h
  induction h with
  | nil => exact .group hhi (.group hlo .nil)
  | group hg _ ih => exact .group hg (ih hd)
  | ipv4 => cases hd

theorem Pieces.cases_dotted (h : Pieces true ts gs) : Pieces false ts gs ∨
    ∃ ts' gs' a, ts = ts' ++ [Ipv4.text a] ∧ gs = gs' ++ [Ipv4.high a, Ipv4.low a] ∧ Pieces false ts' gs' := by
  generalize hd : true = dotted at h
  induction h with
  | nil => exact .inl .nil
  | group hg _ ih =>
    rcases ih hd with h | ⟨ts', gs', a, rfl, rfl, h⟩
    · exact .inl (.group hg h)
    · exact .inr ⟨_ :: ts', _ :: gs', a, rfl, rfl, .group hg h⟩
  | ipv4 a => exact .inr ⟨[], [], a, rfl, rfl, .nil⟩

theorem Ipv6Spells.mem (h : Ipv6Spells dotted t gs) :
    ∀ c ∈ t, c.toLower ∈ hexDigits ∨ c = '.' ∨ c = ':' := by
  have hjoin : ∀ {dotted : Bool} {ts gs}, Pieces dotted ts gs → ∀ c ∈ joinWith ':' ts,
      c.toLower ∈ hexDigits ∨ c = '.' ∨ c = ':' := by
    intro _ ts gs h c hc
    rcases mem_joinWith hc with hc | ⟨t, ht, hc⟩
    · exact .inr (.inr hc)
    · exact (h.mem_dotted t ht c hc).imp_right .inl
  intro c hc
  cases h with
  | full hp _ => exact hjoin hp c hc
  | compressed hl hr _ =>
    simp only [List.mem_append, List.mem_cons] at hc
    rcases hc with hc | hc | hc | hc
    · exact hjoin hl c hc
    · exact .inr (.inr hc)
    · exact .inr (.inr hc)
    · exact hjoin hr c hc

theorem Ipv6Spells.toLower (h : Ipv6Spells dotted t gs) : Ipv6Spells dotted (t.map Char.toLower) gs := by
  cases h with
  | full hp hl =>
    rw [map_joinWith rfl]
    exact .full hp.toLower hl
  | compressed hl hr hlen =>
    rw [List.map_append, List.map_cons, List.map_cons, map_joinWith rfl, map_joinWith rfl]
    exact .compressed hl.toLower hr.toLower hlen

theorem Pieces.length_le (h : Pieces dotted ts gs) : gs.length ≤ ts.length + 1 := by
  induction h with
  | nil => exact Nat.zero_le _
  | group _ _ ih => exact Nat.succ_le_succ ih
  | ipv4 => exact Nat.le_refl _

theorem Ipv6Spells.colon_mem (h : Ipv6Spells dotted t gs) : ':' ∈ t := by
  cases h with
  | @full ts _ hp hl =>
    have hle := hp.length_le
    match ts with
    | [] | [_] =>
      simp only [List.length_cons, List.length_nil] at hle
      omega
    | _ :: _ :: _ =>
      rw [joinWith_cons (List.cons_ne_nil _ _)]
      simp
  | compressed => simp

/-- The two hex groups of an IPv4 address in its place spell the same address. -/
theorem Ipv6Spells.cases_dotted (h : Ipv6Spells true t gs) : (Ipv6Spells false t gs ∧ '.' ∉ t) ∨
    ∃ before a, t = before ++ ':' :: Ipv4.text a ∧ ∀ hi lo, HexGroup hi a.high →
      HexGroup lo a.low → Ipv6Spells false (before ++ ':' :: (hi ++ ':' :: lo)) gs := by
  have hjoin : ∀ hi lo : List Char, hi ++ ':' :: lo = joinWith ':' [hi, lo] := fun hi lo => by
    rw [joinWith_cons (List.cons_ne_nil _ _), joinWith_singleton]
  cases h with
  | full hp hl =>
    rcases hp.cases_dotted with h | ⟨ts, gs', a, rfl, rfl, h⟩
    · exact .inl ⟨.full h hl, h.not_dot⟩
    · have hts : ts ≠ [] := by
        rintro rfl
        have hl' := h.length_eq
        simp only [List.length_append, List.length_cons, List.length_nil] at hl hl'
        omega
      refine .inr ⟨joinWith ':' ts, a, by rw [joinWith_append hts (by simp), joinWith_singleton],
        fun hi lo hhi hlo => ?_⟩
      rw [hjoin hi lo, ← joinWith_append hts (by simp)]
      exact .full (h.concat hhi hlo) hl
  | @compressed ts left us right hleft hright hlen =>
    rcases hright.cases_dotted with h | ⟨us, gs', a, rfl, rfl, h⟩
    · refine .inl ⟨.compressed hleft h hlen, fun hc => ?_⟩
      simp only [List.mem_append, List.mem_cons] at hc
      rcases hc with hc | hc | hc | hc
      · exact hleft.not_dot hc
      · cases hc
      · cases hc
      · exact h.not_dot hc
    · by_cases hus : us = []
      · subst hus
        refine .inr ⟨joinWith ':' ts ++ [':'], a, by simp, fun hi lo hhi hlo => ?_⟩
        rw [List.append_assoc, List.singleton_append, hjoin hi lo]
        exact .compressed hleft (h.concat hhi hlo) hlen
      · refine .inr ⟨joinWith ':' ts ++ ':' :: ':' :: joinWith ':' us, a, ?_, fun hi lo hhi hlo => ?_⟩
        · rw [joinWith_append hus (by simp), joinWith_singleton]
          simp
        · have he : joinWith ':' ts ++ ':' :: ':' :: joinWith ':' us ++ ':' :: (hi ++ ':' :: lo) =
              joinWith ':' ts ++ ':' :: ':' :: joinWith ':' (us ++ [hi, lo]) := by
            rw [hjoin hi lo, joinWith_append hus (by simp)]
            simp
          rw [he]
          exact .compressed hleft (h.concat hhi hlo) hlen

end Catalyst.Library
