import Ircd.Ban.Placing
import Ircd.Match.Limit

/-!
# The mask for the host of a nick

`cluster` of `modules/m_kline.c`, and which names the masks match that `find_user_host` makes of the user and the host
of a client: of each it keeps no more than seven characters.
-/
namespace Ircd.Ban

open Chan (hostLen charAt ircMatch)
open Hostmask (SameChar tokenOf)
open Glob (Matches)

/-! ### `cluster` -/

/-- `temphost`: the host, its NUL, and the octets that happen to be behind it. -/
def temphost (behind hostname : List Char) : List Char :=
  (strlcpy hostname (hostLen + 1) ++ '\x00' :: behind).take (hostLen + 1)

/-- What the search for an IP number leaves behind. -/
structure IpScan where
  isIpNumber : Bool
  numberOfDots : ℕ
  zapPoint : Option ℕ
deriving DecidableEq

/-- The search for an IP number, which passes over the character behind a dot, whatever it is. It has nothing to say
where it leaves `temphost`. -/
def ipScan : Bool → List Char → ℕ → ℕ → Option ℕ → Option IpScan
  | _, [], _, _, _ => none
  | true, _ :: rest, ipp, dots, zap => ipScan false rest (ipp + 1) dots zap
  | false, c :: rest, ipp, dots, zap =>
    if c = '\x00' then some ⟨true, dots, zap⟩
    else if c = '.' then ipScan true rest (ipp + 1) (dots + 1) (if dots + 1 = 3 then some ipp else zap)
    else if c.isDigit then ipScan false rest (ipp + 1) dots zap
    else some ⟨false, dots, zap⟩

/-- The string in a buffer. -/
def cstring (buf : List Char) : List Char := buf.takeWhile (· ≠ '\x00')

/-- `strrchr`: what is before the last such character, and what begins there. -/
def strrchr (text : List Char) (c : Char) : Option (List Char × List Char) :=
  if c ∈ text then
    some ((text.reverse.dropWhile (· ≠ c)).tail.reverse, c :: (text.reverse.takeWhile (· ≠ c)).reverse)
  else none

/-- The loop that goes back from the top level domain. The characters before `host_mask` are given last one first. -/
def hostLoop : List Char → ℕ → List Char → List Char
  | [], _, hostMask => hostMask
  | [first], _, hostMask => first :: hostMask
  | c :: before, dots, hostMask =>
    let dots := if c = '.' then dots - 1 else dots
    if dots = 0 then c :: hostMask else hostLoop before dots (c :: hostMask)

/-- `cluster`. There is nothing to say where it reads outside `temphost`. -/
def cluster (behind hostname : List Char) : Option (List Char) :=
  if '@' ∈ hostname then some (strlcpy hostname (hostLen + 1))
  else
    let temp := temphost behind hostname
    (ipScan false temp 0 0 none).bind fun scan =>
      if scan.isIpNumber ∧ scan.numberOfDots = 3 then
        let zap := scan.zapPoint.getD 0 + 1
        some (strlcpy (cstring ((temp.set zap '*').set (zap + 1) '\x00')) (hostLen + 1))
      else
        match strrchr (cstring temp) '.' with
        | none => some (strlcpy (cstring temp) (hostLen + 1))
        | some (before, tld) =>
          (temp.drop before.length)[3]?.map fun third =>
            '*' :: strlcpy (hostLoop before.reverse (if third ≠ '\x00' then 1 else 2) tld) hostLen

/-! ### Short masks -/

/-- None of the characters is special to `match`. -/
def Unspecial (text : List Char) : Prop := ∀ c ∈ text, c ∉ ['*', '?', '\\']

instance (text : List Char) : Decidable (Unspecial text) := List.decidableBAll _ text

/-- The name ends so, up to case. -/
def EndsWith (name text : List Char) : Prop := text.map toLower <:+ name.map toLower

instance (name text : List Char) : Decidable (EndsWith name text) := inferInstanceAs (Decidable (_ <:+ _))

section

variable {mask name text : List Char}

theorem Unspecial.tokens (unspecial : Unspecial text) : text.map tokenOf = text.map .lit := by
  apply List.map_congr_left
  intro c member
  have other := unspecial c member
  simp only [List.mem_cons, List.not_mem_nil, or_false, not_or] at other
  rw [tokenOf, if_neg other.1, if_neg other.2.1]

theorem Unspecial.plain (unspecial : Unspecial text) : '\\' ∉ text :=
  fun member => unspecial '\\' member (by decide)

theorem forall₂_sameChar : ∀ {s t : List Char}, List.Forall₂ SameChar s t ↔ s.map toLower = t.map toLower
  | [], [] => by simp
  | [], _ :: _ => by simp
  | _ :: _, [] => by simp
  | c :: s, d :: t => by
    rw [List.forall₂_cons, forall₂_sameChar, List.map_cons, List.map_cons, List.cons.injEq]
    rfl

/-- A mask of seven characters has its answer in time for every host. -/
theorem ircMatch_short (plain : '\\' ∉ mask) (short : mask.length ≤ 7) (host : name.length ≤ hostLen)
    (maskClean : '\x00' ∉ mask) (nameClean : '\x00' ∉ name) :
    ircMatch mask name = true ↔ Matches SameChar (mask.map tokenOf) name := by
  have limited := Match.matchLoop_run mask name Chan.matchMaxCalls Match.matchStart
  have enough : (name.length + 1) * (7 + 1) ≤ Chan.matchMaxCalls := by
    unfold hostLen at host
    unfold Chan.matchMaxCalls
    omega
  rw [Match.run_answers (Match.sound_plain plain) (Match.quotedEnd_plain plain) maskClean nameClean
    (fun t _ root => (root.length_le.trans (short.trans (Nat.le_add_left 7 _)) : t.ma.length ≤ t.m.length + 7))
    enough] at limited
  rw [show ircMatch mask name = _ from limited, Glob.run_iff, Match.reading_plain plain]

/-- A mask without wildcards matches itself. -/
theorem ircMatch_lits (unspecial : Unspecial text) (short : text.length ≤ 7) (host : name.length ≤ hostLen)
    (textClean : '\x00' ∉ text) (nameClean : '\x00' ∉ name) :
    ircMatch text name = true ↔ text.map toLower = name.map toLower := by
  rw [ircMatch_short unspecial.plain short host textClean nameClean, unspecial.tokens, Glob.matches_lits,
    forall₂_sameChar]

/-- A star, and the end of the names. -/
theorem ircMatch_star (unspecial : Unspecial text) (short : text.length ≤ 6) (host : name.length ≤ hostLen)
    (textClean : '\x00' ∉ text) (nameClean : '\x00' ∉ name) :
    ircMatch ('*' :: text) name = true ↔ EndsWith name text := by
  rw [ircMatch_short (by simpa using unspecial.plain) (by simp; omega) host (by simpa using textClean) nameClean,
    List.map_cons, unspecial.tokens, show tokenOf '*' = .star from rfl, Glob.matches_star]
  constructor
  · rintro ⟨back, ⟨front, rfl⟩, same⟩
    rw [Glob.matches_lits, forall₂_sameChar] at same
    exact ⟨front.map toLower, by rw [same, List.map_append]⟩
  · rintro ⟨front, split⟩
    obtain ⟨front, back, rfl, -, same⟩ := List.append_eq_map_iff.mp split
    exact ⟨back, List.suffix_append front back, (Glob.matches_lits _ _ _).mpr (forall₂_sameChar.mpr same.symm)⟩

/-- The start of the names, and a star. -/
theorem ircMatch_start (unspecial : Unspecial text) (short : text.length ≤ 6) (rest : List Char)
    (host : (text ++ rest).length ≤ hostLen) (clean : '\x00' ∉ text ++ rest) :
    ircMatch (text ++ ['*']) (text ++ rest) = true := by
  have textClean : '\x00' ∉ text := fun member => clean (by simp [member])
  rw [ircMatch_short (by simpa using unspecial.plain) (by simp; omega) host (by simpa using textClean) clean,
    List.map_append, unspecial.tokens, Glob.matches_append]
  refine ⟨text, rest, rfl, ?_, ?_⟩
  · exact (Glob.matches_lits _ _ _).mpr (forall₂_sameChar.mpr rfl)
  · exact (Glob.matches_star _ _).mpr ⟨[], List.nil_suffix, rfl⟩

end

/-! ### Which names are matched -/

/-- A mask of the first seven characters matches the name. -/
def KeptWhole (name : List Char) : Prop :=
  if Unspecial (name.take 7) then name.length ≤ 7 else ircMatch (name.take 7) name = true

/-- A star and the first six characters of this end match the name. -/
def KeptEnd (ending name : List Char) : Prop :=
  if Unspecial (ending.take 6) then EndsWith name (ending.take 6) else ircMatch ('*' :: ending.take 6) name = true

/-- The first seven characters of this start and a star match the name. -/
def KeptStart (start name : List Char) : Prop :=
  if Unspecial (start.take 7) then start.length ≤ 6 ∨ name.length = 7
  else ircMatch ((start ++ ['*']).take 7) name = true

instance (name : List Char) : Decidable (KeptWhole name) := inferInstanceAs (Decidable (ite _ _ _))

instance (ending name : List Char) : Decidable (KeptEnd ending name) := inferInstanceAs (Decidable (ite _ _ _))

instance (start name : List Char) : Decidable (KeptStart start name) := inferInstanceAs (Decidable (ite _ _ _))

section

variable {name : List Char}

theorem map_take_eq (n : ℕ) : (name.take n).map toLower = name.map toLower ↔ name.length ≤ n := by
  constructor
  · intro same
    have lengths := congrArg List.length same
    simp only [List.length_map, List.length_take] at lengths
    omega
  · intro short
    rw [List.take_of_length_le short]

theorem keptWhole_iff (host : name.length ≤ hostLen) (clean : '\x00' ∉ name) :
    ircMatch (name.take 7) name = true ↔ KeptWhole name := by
  unfold KeptWhole
  split
  · rename_i unspecial
    rw [ircMatch_lits unspecial (List.length_take_le 7 name) host (fun member => clean (List.mem_of_mem_take member)) clean,
      map_take_eq]
  · exact Iff.rfl

theorem keptEnd_iff (ending : List Char) (host : name.length ≤ hostLen) (endClean : '\x00' ∉ ending)
    (clean : '\x00' ∉ name) : ircMatch ('*' :: ending.take 6) name = true ↔ KeptEnd ending name := by
  unfold KeptEnd
  split
  · rename_i unspecial
    exact ircMatch_star unspecial (List.length_take_le 6 ending) host
      (fun member => endClean (List.mem_of_mem_take member)) clean
  · exact Iff.rfl

theorem keptStart_iff (start rest : List Char) (host : (start ++ rest).length ≤ hostLen)
    (clean : '\x00' ∉ start ++ rest) :
    ircMatch ((start ++ ['*']).take 7) (start ++ rest) = true ↔ KeptStart start (start ++ rest) := by
  unfold KeptStart
  split
  · rename_i unspecial
    by_cases short : start.length ≤ 6
    · rw [List.take_of_length_le (by simp; omega)]
      rw [List.take_of_length_le (by omega)] at unspecial
      exact ⟨fun _ => .inl short, fun _ => ircMatch_start unspecial short rest host clean⟩
    · -- nothing is left of the star
      have cut : (start ++ ['*']).take 7 = (start ++ rest).take 7 := by
        rw [List.take_append_of_le_length (by omega), List.take_append_of_le_length (by omega)]
      have first : (start ++ rest).take 7 = start.take 7 := List.take_append_of_le_length (by omega)
      rw [cut, keptWhole_iff host clean, KeptWhole, first, if_pos unspecial]
      constructor
      · intro whole
        simp only [List.length_append] at whole ⊢
        omega
      · rintro (less | whole)
        · exact absurd less short
        · exact whole.le
  · exact Iff.rfl

end

/-! ### What `cluster` keeps of a host -/

/-- The part of the host that begins with a dot with so many dots behind it, or all of the host if there is none. -/
def fromDot (dots : ℕ) : List Char → List Char
  | [] => []
  | c :: host => if host.count '.' ≤ dots then c :: host else fromDot dots host

theorem fromDot_append {dots : ℕ} (front : List Char) {host : List Char} (more : dots < host.count '.') :
    fromDot dots (front ++ host) = fromDot dots host := by
  induction front with
  | nil => rfl
  | cons c front ih =>
    rw [List.cons_append, fromDot, if_neg, ih]
    rw [List.count_append]
    omega

theorem fromDot_suffix (dots : ℕ) (host : List Char) : fromDot dots host <:+ host := by
  induction host with
  | nil => exact List.suffix_refl []
  | cons c host ih =>
    rw [fromDot]
    split
    · exact List.suffix_refl _
    · exact ih.trans (List.suffix_cons c host)

/-- The loop goes back to that dot. -/
theorem hostLoop_eq {dots : ℕ} (before hostMask : List Char) (some : hostMask ≠ []) (few : hostMask.count '.' ≤ dots) :
    hostLoop before (dots + 1 - hostMask.count '.') hostMask = fromDot dots (before.reverse ++ hostMask) := by
  have whole : ∀ hostMask : List Char, hostMask.tail.count '.' ≤ dots → fromDot dots hostMask = hostMask := by
    intro hostMask few
    cases hostMask with
    | nil => rfl
    | cons c hostMask => exact if_pos few
  induction before generalizing hostMask with
  | nil => exact (whole hostMask ((List.tail_sublist hostMask).count_le '.' |>.trans few)).symm
  | cons c before ih =>
    have text : (c :: before).reverse ++ hostMask = before.reverse ++ c :: hostMask := by simp
    rw [text]
    cases before with
    | nil => exact (whole (c :: hostMask) few).symm
    | cons d before =>
      rw [hostLoop.eq_3 _ _ c (d :: before) (List.cons_ne_nil d before)]
      by_cases dot : c = '.'
      · subst dot
        have more : ('.' :: hostMask).count '.' = hostMask.count '.' + 1 := List.count_cons_self
        rw [if_pos rfl]
        by_cases last : hostMask.count '.' = dots
        · rw [if_pos (by omega), fromDot_append _ (by omega), whole ('.' :: hostMask) few]
        · rw [if_neg (by omega), ← ih ('.' :: hostMask) (List.cons_ne_nil _ _) (by omega), more]
          congr 1
      · have same : (c :: hostMask).count '.' = hostMask.count '.' := List.count_cons_of_ne dot
        rw [if_neg dot, if_neg (by omega), ← ih (c :: hostMask) (List.cons_ne_nil _ _) (by omega), same]

section

variable {behind host : List Char}

theorem temphost_eq (short : host.length ≤ hostLen) :
    temphost behind host = host ++ '\x00' :: behind.take (hostLen - host.length) := by
  unfold temphost strlcpy
  rw [Nat.add_sub_cancel, List.take_of_length_le short, List.take_append, List.take_of_length_le (by omega),
    Nat.succ_sub short, List.take_succ_cons]

theorem cstring_append (clean : '\x00' ∉ host) (rest : List Char) : cstring (host ++ '\x00' :: rest) = host := by
  unfold cstring
  rw [List.takeWhile_append_of_pos]
  · simp
  · intro c member
    simpa using fun nul : c = '\x00' => clean (nul ▸ member)

/-- The third dot is where the scan has been, and two characters more are read behind it. -/
theorem ipScan_zap {temp text : List Char} {skip : Bool} {ipp dots : ℕ} {zap : Option ℕ} {scan : IpScan}
    (here : temp.drop ipp = text) (counted : 3 ≤ dots → zap ≠ none)
    (passed : ∀ z, zap = some z → temp[z]? = some '.' ∧ z + 2 ≤ ipp + if skip then 1 else 0)
    (done : ipScan skip text ipp dots zap = some scan) (three : scan.numberOfDots = 3) :
    ∃ z, scan.zapPoint = some z ∧ temp[z]? = some '.' ∧ z + 2 < temp.length := by
  induction text generalizing skip ipp dots zap with
  | nil => simp [ipScan] at done
  | cons c text ih =>
    have inside : ipp < temp.length := by
      by_contra outside
      rw [List.drop_eq_nil_of_le (by omega)] at here
      cases here
    have next : temp.drop (ipp + 1) = text := by
      rw [← List.drop_drop, here]
      rfl
    have current : temp[ipp]? = some c := by
      rw [← List.head?_drop, here]
      rfl
    -- where the scan stops, the third dot is behind it
    have stop : scan = ⟨scan.isIpNumber, dots, zap⟩ → skip = false →
        ∃ z, scan.zapPoint = some z ∧ temp[z]? = some '.' ∧ z + 2 < temp.length := by
      rintro equal rfl
      rw [equal] at three ⊢
      obtain ⟨z, rfl⟩ := Option.ne_none_iff_exists'.mp (counted (ge_of_eq three))
      obtain ⟨dot, before⟩ := passed z rfl
      simp only [Bool.false_eq_true, if_false] at before
      exact ⟨z, rfl, dot, by omega⟩
    cases skip with
    | true =>
      refine ih next counted (fun z equal => ?_) done
      obtain ⟨dot, before⟩ := passed z equal
      simp only [if_true] at before
      exact ⟨dot, by simpa using before⟩
    | false =>
      rw [ipScan] at done
      split at done
      · exact stop (by rw [← Option.some.inj done]) rfl
      · split at done
        · rename_i dot
          refine ih next ?_ (fun z equal => ?_) done
          · intro third
            by_cases now : dots + 1 = 3
            · simp [now]
            · rw [if_neg now]
              exact counted (by omega)
          · by_cases now : dots + 1 = 3
            · rw [if_pos now] at equal
              obtain rfl := Option.some.inj equal
              exact ⟨dot ▸ current, by simp⟩
            · rw [if_neg now] at equal
              obtain ⟨there, before⟩ := passed z equal
              simp only [Bool.false_eq_true, if_false] at before
              exact ⟨there, by simp; omega⟩
        · split at done
          · refine ih next counted (fun z equal => ?_) done
            obtain ⟨there, before⟩ := passed z equal
            simp only [Bool.false_eq_true, if_false] at before ⊢
            exact ⟨there, by omega⟩
          · exact stop (by rw [← Option.some.inj done]) rfl

/-- The host up to its third dot, with a star. -/
theorem cstring_zapped (clean : '\x00' ∉ host) {rest : List Char} {z : ℕ} (inside : z < host.length)
    (room : z + 2 < (host ++ '\x00' :: rest).length) :
    cstring (((host ++ '\x00' :: rest).set (z + 1) '*').set (z + 2) '\x00') = host.take (z + 1) ++ ['*'] := by
  have first : (host ++ '\x00' :: rest).set (z + 1) '*' =
      host.take (z + 1) ++ '*' :: (host ++ '\x00' :: rest).drop (z + 2) := by
    rw [List.set_eq_take_append_cons_drop, if_pos (by omega), List.take_append_of_le_length (by omega)]
  have second : ((host ++ '\x00' :: rest).set (z + 1) '*').set (z + 2) '\x00' =
      (host.take (z + 1) ++ ['*']) ++ '\x00' :: (host ++ '\x00' :: rest).drop (z + 3) := by
    rw [List.set_eq_take_append_cons_drop, if_pos (by simpa using room), first]
    have length : (host.take (z + 1)).length = z + 1 := by
      rw [List.length_take]
      omega
    congr 1
    · rw [List.take_append, length]
      simp [length]
    · rw [List.drop_append, length]
      simp [length]
  rw [second, cstring_append]
  intro member
  rcases List.mem_append.mp member with kept | star
  · exact clean (List.mem_of_mem_take kept)
  · simp at star

/-- What is written behind the host does not change it. -/
theorem cstring_beyond (clean : '\x00' ∉ host) {rest : List Char} {z : ℕ} (beyond : host.length < z) :
    cstring (((host ++ '\x00' :: rest).set (z + 1) '*').set (z + 2) '\x00') = host := by
  obtain ⟨k, rfl⟩ := Nat.exists_eq_add_of_lt beyond
  rw [List.set_append_right _ _ (by omega), List.set_append_right _ _ (by omega),
    show host.length + k + 1 + 1 - host.length = k + 1 + 1 from by omega,
    show host.length + k + 1 + 2 - host.length = k + 2 + 1 from by omega, List.set_cons_succ, List.set_cons_succ,
    cstring_append clean]

theorem strrchr_eq {text : List Char} {c : Char} {before tld : List Char}
    (found : strrchr text c = some (before, tld)) :
    text = before ++ tld ∧ ∃ label, tld = c :: label ∧ c ∉ label := by
  unfold strrchr at found
  split at found
  · rename_i inside
    obtain ⟨rfl, rfl⟩ := Prod.mk.inj (Option.some.inj found)
    have split := List.takeWhile_append_dropWhile (p := fun x => decide (x ≠ c)) (l := text.reverse)
    cases tail : text.reverse.dropWhile (fun x => decide (x ≠ c)) with
    | nil =>
      have all := List.dropWhile_eq_nil_iff.mp tail c (List.mem_reverse.mpr inside)
      simp at all
    | cons d rest =>
      obtain rfl : d = c := by
        have head := List.head?_dropWhile_not (fun x => decide (x ≠ c)) text.reverse
        rw [tail] at head
        simpa using head
      rw [tail] at split
      refine ⟨?_, _, rfl, ?_⟩
      · have back := congrArg List.reverse split
        rw [List.reverse_reverse, List.reverse_append, List.reverse_cons] at back
        simpa using back.symm
      · intro member
        have other := List.mem_takeWhile_imp (List.mem_reverse.mp member)
        simp at other
  · cases found

/-- The character that says whether the top level domain is long: the third one behind its dot, even where the NUL
stands before that. -/
def tldThird (behind host : List Char) : Option Char :=
  (strrchr host '.').bind fun tld => ((temphost behind host).drop tld.1.length)[3]?

/-- What is kept of the host matches it. -/
def HostKept (behind host : List Char) : Prop :=
  ∃ scan, ipScan false (temphost behind host) 0 0 none = some scan ∧
    if scan.isIpNumber ∧ scan.numberOfDots = 3 then
      if scan.zapPoint.getD 0 < host.length then KeptStart (host.take (scan.zapPoint.getD 0 + 1)) host
      else KeptWhole host
    else if '.' ∈ host then
      ∃ third, tldThird behind host = some third ∧ KeptEnd (fromDot (if third ≠ '\x00' then 1 else 2) host) host
    else KeptWhole host

/-- What `find_user_host` makes of the host. -/
def hostMask (behind host : List Char) : Option (List Char) :=
  (cluster behind host).map fun clustered => strlcpy clustered sizeofPointer

/-- The mask for the host matches it where enough of it is kept. -/
theorem hostKept_iff (noAt : '@' ∉ host) (short : host.length ≤ hostLen) (clean : '\x00' ∉ host) :
    (∃ mask, hostMask behind host = some mask ∧ ircMatch mask host = true) ↔ HostKept behind host := by
  have temp : temphost behind host = host ++ '\x00' :: behind.take (hostLen - host.length) := temphost_eq short
  have text : cstring (temphost behind host) = host := temp ▸ cstring_append clean _
  -- only what fits in a pointer is kept
  have whole : ∀ kept : List Char, kept.take hostLen = kept →
      strlcpy (strlcpy kept (hostLen + 1)) sizeofPointer = kept.take 7 := by
    intro kept fits
    unfold strlcpy
    rw [Nat.add_sub_cancel, fits]
    rfl
  have fits : host.take hostLen = host := List.take_of_length_le short
  unfold hostMask cluster HostKept
  dsimp only
  rw [if_neg noAt]
  cases scanned : ipScan false (temphost behind host) 0 0 none with
  | none => simp
  | some scan =>
    simp only [Option.bind_some, Option.some.injEq, exists_eq_left']
    by_cases ip : scan.isIpNumber ∧ scan.numberOfDots = 3
    · -- an address loses what stands behind its third dot
      obtain ⟨z, zap, dot, room⟩ := ipScan_zap List.drop_zero (by omega) (fun z none => by cases none) scanned ip.2
      simp only [if_pos ip, zap, Option.getD_some, Option.map_some, Option.some.injEq, exists_eq_left']
      rw [temp] at dot room ⊢
      by_cases inside : z < host.length
      · have bound : (host.take (z + 1) ++ ['*']).length ≤ hostLen := by
          simp only [List.length_append, List.length_cons, List.length_take, List.length_nil] at room ⊢
          omega
        rw [if_pos inside, cstring_zapped clean inside room, whole _ (List.take_of_length_le bound)]
        have split := List.take_append_drop (z + 1) host
        have iff := keptStart_iff (host.take (z + 1)) (host.drop (z + 1)) (split.symm ▸ short) (split.symm ▸ clean)
        rwa [split] at iff
      · have beyond : host.length < z := by
          rcases Nat.lt_or_eq_of_le (Nat.le_of_not_lt inside) with beyond | here
          · exact beyond
          · -- the NUL is no dot
            subst here
            simp at dot
        rw [if_neg inside, cstring_beyond clean beyond, whole host fits]
        exact keptWhole_iff short clean
    · simp only [if_neg ip, text]
      by_cases dotted : '.' ∈ host
      · rw [if_pos dotted]
        unfold tldThird
        cases found : strrchr host '.' with
        | none => simp [strrchr, dotted] at found
        | some tld =>
          obtain ⟨before, tld⟩ := tld
          obtain ⟨rfl, label, rfl, last⟩ := strrchr_eq found
          simp only [Option.bind_some, Option.map_map, Option.map_eq_some_iff, Function.comp_apply]
          have one : ('.' :: label).count '.' = 1 := by
            rw [List.count_cons_self, List.count_eq_zero_of_not_mem last]
          have mask : ∀ dots, 1 ≤ dots →
              strlcpy ('*' :: strlcpy (hostLoop before.reverse dots ('.' :: label)) hostLen) sizeofPointer =
                '*' :: (fromDot dots (before ++ '.' :: label)).take 6 := by
            intro dots some
            have loop := hostLoop_eq before.reverse ('.' :: label) (List.cons_ne_nil _ _) (one.trans_le some)
            rw [one, Nat.add_sub_cancel, List.reverse_reverse] at loop
            rw [loop]
            unfold strlcpy
            rw [show sizeofPointer - 1 = 6 + 1 from rfl, List.take_succ_cons, List.take_take]
            rfl
          have endClean : ∀ dots, '\x00' ∉ fromDot dots (before ++ '.' :: label) :=
            fun dots member => clean ((fromDot_suffix dots _).subset member)
          constructor
          · rintro ⟨_, ⟨third, read, rfl⟩, holds⟩
            rw [mask _ (by split <;> omega), keptEnd_iff _ short (endClean _) clean] at holds
            exact ⟨third, read, holds⟩
          · rintro ⟨third, read, holds⟩
            refine ⟨_, ⟨third, read, rfl⟩, ?_⟩
            rw [mask _ (by split <;> omega)]
            exact (keptEnd_iff _ short (endClean _) clean).mpr holds
      · rw [if_neg dotted]
        have none : strrchr host '.' = none := if_neg dotted
        simp only [none, Option.map_some, Option.some.injEq, exists_eq_left']
        rw [whole host fits]
        exact keptWhole_iff short clean

end

end Ircd.Ban
