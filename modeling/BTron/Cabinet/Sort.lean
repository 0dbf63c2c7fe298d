import BTron.Lib.ExchangeSort
import BTron.TadBrowser.ParseText
import Mathlib.Data.List.Lex
import Mathlib.Data.Prod.Lex

namespace BTron.Cabinet

open Lib

-- CABINET_ITEM as far as it is sorted by, its strings by their bytes
structure Item where
  robjId : Int
  name : List UB
  path : List UB
  sizeBytes : Nat
  iconTag : List UB
deriving DecidableEq

-- What the compiler decides: whether a char is signed, and the largest long.
structure Abi where
  signedChar : Bool
  longMax : Nat

def isDigit (c : UB) : Bool := 0x30 ≤ c && c ≤ 0x39

def charValue (abi : Abi) (c : UB) : Int :=
  if abi.signedChar ∧ c ≥ 0x80 then (c.toNat : Int) - 256 else c.toNat

-- `n = n * 10 + (*s - '0')` over the digits. It overflows past the largest long, which C leaves
-- undefined.
def readDigits (abi : Abi) : Nat → List UB → Option (Nat × List UB)
  | n, [] => some (n, [])
  | n, c :: s =>
    if isDigit c then
      if n * 10 + (c.toNat - 48) ≤ abi.longMax then readDigits abi (n * 10 + (c.toNat - 48)) s
      else none
    else some (n, c :: s)

-- `if (c >= 'A' && c <= 'Z') c += 32`
def fold (c : Int) : Int := if 65 ≤ c ∧ c ≤ 90 then c + 32 else c

-- The loop takes at least one byte of each string in a turn.
def naturalLoop (abi : Abi) : Nat → List UB → List UB → Option Int
  | 0, _, _ => none
  | fuel + 1, c1 :: s1, c2 :: s2 =>
    if isDigit c1 && isDigit c2 then do
      let (n1, s1) ← readDigits abi 0 (c1 :: s1)
      let (n2, s2) ← readDigits abi 0 (c2 :: s2)
      if n1 ≠ n2 then some (if n1 < n2 then -1 else 1) else naturalLoop abi fuel s1 s2
    else
      let d1 := fold (charValue abi c1)
      let d2 := fold (charValue abi c2)
      if d1 ≠ d2 then some (if d1 < d2 then -1 else 1) else naturalLoop abi fuel s1 s2
  | _ + 1, s1, s2 => some (if s1 = [] ∧ s2 = [] then 0 else if s1 = [] then -1 else 1)

def naturalCompare (abi : Abi) (s1 s2 : List UB) : Option Int :=
  naturalLoop abi (s1.length + 1) s1 s2

def utf8 (s : String) : List UB := TadBrowser.utf8 s

-- What `get_toc_order` looks for in a path, one after the other, and the place it gives then.
def tocParts : List (String × Int) :=
  [("01_btron3_spec", 10), ("02_tkernel_book", 20), ("03_bfree_os_book", 30),
    ("04_tron_hmi_book", 35)]

def tocChapters : List (String × Int) :=
  [("shared_data/data_type", 100), ("shared_data/tron_code", 110), ("shared_data/tad1", 120),
    ("shared_data/tad2", 130), ("shared_data/tad3", 140), ("shared_data/fd_format", 150),
    ("shared_data/index.tad", 160), ("shared_data/indexfig", 170),
    ("os_spec/index.tad", 200), ("os_spec/indexfig.tad", 205),
    ("os_spec/kernel/kernel", 210), ("os_spec/kernel/proc", 220), ("os_spec/kernel/memory", 230),
    ("os_spec/kernel/file", 240), ("os_spec/kernel/event", 250), ("os_spec/kernel/clk", 260),
    ("os_spec/kernel/device", 270), ("os_spec/kernel/message", 280),
    ("os_spec/kernel/taskcomm", 290), ("os_spec/kernel/system", 300),
    ("os_spec/kernel/gname", 310),
    ("os_spec/dp/dp.tad", 400), ("os_spec/dp/basic_concept", 410), ("os_spec/dp/basic_func", 420),
    ("os_spec/dp/character_func", 430), ("os_spec/dp/figure_func", 440),
    ("os_spec/dp/pointer_func", 450), ("os_spec/dp/intro", 460),
    ("os_spec/shell/shell.tad", 500), ("os_spec/shell/window", 510), ("os_spec/shell/menu", 520),
    ("os_spec/shell/panel", 530), ("os_spec/shell/parts", 540), ("os_spec/shell/font_mgr", 550),
    ("os_spec/shell/printmgr", 560), ("os_spec/shell/tip", 570), ("os_spec/shell/tray", 580),
    ("os_spec/shell/tcpip", 590), ("os_spec/shell/omgr", 600), ("os_spec/shell/data", 610),
    ("b-hmi/index", 640), ("b-hmi/part1", 650), ("b-hmi/part2", 660), ("b-hmi/part_book", 670),
    ("b-hmi", 680),
    ("b-free/manifest", 700), ("b-free/kernel", 710), ("b-free/posix", 720),
    ("b-free/btron", 730), ("b-free/boot_arch", 740), ("b-free/source_tree", 750),
    ("b-free/index", 760),
    ("b-system/virtio", 800), ("b-system/btron_spec", 810), ("b-system/kernel", 820),
    ("b-system/license", 830), ("b-system/index", 840),
    ("t-kernel/tkernel_spec", 900), ("t-kernel/tkernel_startup", 910),
    ("t-kernel/tkernel_qemu", 920), ("t-kernel/index", 930)]

def tocFind (path : List UB) (parts : List (String × Int)) : Option Int :=
  (parts.find? fun p => (TadBrowser.strstr (utf8 p.1) path).isSome).map Prod.snd

def getTocOrder (path name : List UB) : Int :=
  match tocFind path tocParts with
  | some order => order
  | none =>
    if name = utf8 "index.tad" ∧ path = utf8 "tad_bin/index.tad" then 40
    else (tocFind path tocChapters).getD 1000

-- `strcmp`
def strcmp : List UB → List UB → Int
  | [], [] => 0
  | [], _ :: _ => -1
  | _ :: _, [] => 1
  | a :: as, b :: bs => if a = b then strcmp as bs else if a < b then -1 else 1

def nameAfter (abi : Abi) (a b : Item) : Option Bool :=
  (naturalCompare abi a.name b.name).map fun r => decide (r > 0)

-- The comparison of `cabinet_sort_items` under a sort mode.
def swapItems (abi : Abi) (sortMode : Int) (a b : Item) : Option Bool :=
  if sortMode = 1 then nameAfter abi a b
  else if sortMode = 2 then some (decide (a.robjId > b.robjId))
  else if sortMode = 3 then some (decide (a.sizeBytes < b.sizeBytes))
  else
    let cmpGrp := strcmp a.iconTag b.iconTag
    if cmpGrp > 0 then some true
    else if cmpGrp = 0 then
      let orderI := getTocOrder a.path a.name
      let orderJ := getTocOrder b.path b.name
      if orderI > orderJ then some true
      else if orderI = orderJ then nameAfter abi a b
      else some false
    else some false

def cabinetSortItems (abi : Abi) (sortMode : Int) (items : List Item) : Option (List Item) :=
  if items.length ≤ 1 then some items else exchangeSort (swapItems abi sortMode) items


-- A name is read as a list of these: a character, or a number where digits stand.
abbrev Tok := Int ×ₗ Nat

def Tok.num (n : Nat) : Tok := toLex (48, n)

def Tok.chr (c : Int) : Tok := toLex (c, 0)

-- `number` is what the digits just before are worth.
def tokensFrom (abi : Abi) : Option Nat → List UB → List Tok
  | none, [] => []
  | some n, [] => [.num n]
  | number, c :: s =>
    if isDigit c then tokensFrom abi (some (number.getD 0 * 10 + (c.toNat - 48))) s
    else (number.map Tok.num).toList ++ .chr (fold (charValue abi c)) :: tokensFrom abi none s

def tokens (abi : Abi) (s : List UB) : List Tok := tokensFrom abi none s

-- Every number of the name is a long.
def Fits (abi : Abi) (s : List UB) : Prop := ∀ n, .num n ∈ tokens abi s → n ≤ abi.longMax

-- The numbers that a comparison comes to are.
def Readable (max : Nat) : List Tok → List Tok → Prop
  | t :: ts, u :: us =>
    ((ofLex t).1 = 48 → (ofLex u).1 = 48 → (ofLex t).2 ≤ max ∧ (ofLex u).2 ≤ max) ∧
      (t = u → Readable max ts us)
  | _, _ => True

def sign {κ : Type} [LinearOrder κ] (a b : κ) : Int := if a < b then -1 else if a = b then 0 else 1

variable {abi : Abi} {s s1 s2 : List UB} {c : UB} {n : Nat} {α κ : Type} [LinearOrder α]
  [LinearOrder κ]

-- The digits at the front, whatever they are worth, and what is behind them.
def digits : Nat → List UB → Nat × List UB
  | n, [] => (n, [])
  | n, c :: s => if isDigit c then digits (n * 10 + (c.toNat - 48)) s else (n, c :: s)

theorem le_digits (n : Nat) (s : List UB) : n ≤ (digits n s).1 := by
  induction s generalizing n with
  | nil => exact Nat.le_refl n
  | cons c s ih =>
      rw [digits]
      split
      · have hle := ih (n * 10 + (c.toNat - 48))
        omega
      · exact Nat.le_refl n

theorem length_digits (n : Nat) (s : List UB) : (digits n s).2.length ≤ s.length := by
  induction s generalizing n with
  | nil => exact Nat.le_refl 0
  | cons c s ih =>
      rw [digits]
      split
      · exact Nat.le_succ_of_le (ih _)
      · exact Nat.le_refl _

theorem readDigits_eq (hn : n ≤ abi.longMax) (s : List UB) : readDigits abi n s =
    if (digits n s).1 ≤ abi.longMax then some (digits n s) else none := by
  induction s generalizing n with
  | nil => rw [readDigits, digits, if_pos hn]
  | cons c s ih =>
      rw [readDigits, digits]
      by_cases hc : isDigit c = true
      · rw [if_pos hc, if_pos hc]
        by_cases hfits : n * 10 + (c.toNat - 48) ≤ abi.longMax
        · rw [if_pos hfits, ih hfits]
        · have hle := le_digits (n * 10 + (c.toNat - 48)) s
          rw [if_neg hfits, if_neg (by omega)]
      · rw [if_neg hc, if_neg hc, if_pos hn]

theorem tokensFrom_digits (n : Nat) (s : List UB) :
    tokensFrom abi (some n) s = .num (digits n s).1 :: tokens abi (digits n s).2 := by
  induction s generalizing n with
  | nil => rfl
  | cons c s ih =>
      rw [tokensFrom, digits]
      by_cases hc : isDigit c = true
      · rw [if_pos hc, if_pos hc]
        exact ih _
      · rw [if_neg hc, if_neg hc, tokens, tokensFrom, if_neg hc]
        rfl

-- A name that begins with a digit begins with a number.
theorem tokens_digit (hc : isDigit c = true) (s : List UB) : tokens abi (c :: s) =
    .num (digits 0 (c :: s)).1 :: tokens abi (digits 0 (c :: s)).2 := by
  rw [tokens, tokensFrom, if_pos hc, tokensFrom_digits, digits, if_pos hc]
  rfl

theorem tokens_char (hc : isDigit c = false) (s : List UB) :
    tokens abi (c :: s) = .chr (fold (charValue abi c)) :: tokens abi s := by
  rw [tokens, tokensFrom, if_neg (by simp [hc])]
  rfl

theorem isDigit_iff : isDigit c = true ↔ 48 ≤ c.toNat ∧ c.toNat ≤ 57 := by
  rw [isDigit, Bool.and_eq_true, decide_eq_true_eq, decide_eq_true_eq, UInt8.le_iff_toNat_le,
    UInt8.le_iff_toNat_le]
  rfl

theorem digit_value (abi : Abi) (hc : isDigit c = true) :
    48 ≤ fold (charValue abi c) ∧ fold (charValue abi c) ≤ 57 := by
  obtain ⟨hlow, hhigh⟩ := isDigit_iff.mp hc
  have hplain : ¬ (abi.signedChar ∧ c ≥ 0x80) := by
    rw [ge_iff_le, UInt8.le_iff_toNat_le]
    rintro ⟨_, h⟩
    exact absurd (h.trans hhigh) (by decide)
  rw [charValue, if_neg hplain, fold]
  split <;> omega

theorem char_value (abi : Abi) (hc : isDigit c = false) :
    fold (charValue abi c) < 48 ∨ 57 < fold (charValue abi c) := by
  have hno : ¬ (48 ≤ c.toNat ∧ c.toNat ≤ 57) := by
    rw [← isDigit_iff, hc]
    decide
  have hlt := c.toNat_lt
  rw [fold, charValue]
  split_ifs <;> omega

-- The digits are together between the other characters.
theorem char_apart (abi : Abi) (hc : isDigit c = false) {d : UB} (hd : isDigit d = true) :
    fold (charValue abi c) ≠ 48 ∧ fold (charValue abi d) ≠ fold (charValue abi c) ∧
      (fold (charValue abi d) < fold (charValue abi c) ↔ 48 < fold (charValue abi c)) := by
  obtain ⟨hlow, hhigh⟩ := digit_value abi hd
  have hvalue := char_value abi hc
  omega

theorem sign_cons (t u : α) (ts us : List α) :
    sign (t :: ts) (u :: us) = if t = u then sign ts us else if t < u then -1 else 1 := by
  rw [sign, sign]
  by_cases heq : t = u
  · subst heq
    simp only [List.cons_lt_cons_iff, lt_irrefl, false_or, true_and, List.cons.injEq, if_true]
    split_ifs <;> rfl
  · have hlt : t :: ts < u :: us ↔ t < u := by
      rw [List.cons_lt_cons_iff]
      simp [heq]
    simp only [hlt, List.cons.injEq, heq, false_and, if_false]

theorem sign_apart {t u : α} (hne : t ≠ u) (ts us : List α) :
    sign (t :: ts) (u :: us) = if t < u then -1 else 1 := by
  rw [sign_cons, if_neg hne]

theorem sign_nil_cons (t : α) (ts : List α) : sign [] (t :: ts) = -1 :=
  if_pos (List.nil_lt_cons t ts)

theorem sign_cons_nil (t : α) (ts : List α) : sign (t :: ts) [] = 1 := by
  rw [sign, if_neg (List.not_lt_nil _), if_neg (List.cons_ne_nil _ _)]

theorem sign_pos {a b : κ} : 0 < sign a b ↔ b < a := by
  rw [sign]
  obtain hlt | rfl | hgt := lt_trichotomy a b
  · simp [hlt, hlt.le]
  · simp
  · simp [hgt, hgt.not_gt, hgt.ne']

theorem sign_eq_zero {a b : κ} : sign a b = 0 ↔ a = b := by
  rw [sign]
  obtain hlt | rfl | hgt := lt_trichotomy a b
  · simp [hlt, hlt.ne]
  · simp
  · simp [hgt.not_gt, hgt.ne']

theorem sign_nonpos {a b : κ} : sign a b ≤ 0 ↔ a ≤ b := by
  rw [← not_lt, sign_pos, not_lt]

theorem sign_comm (a b : κ) : sign b a = -sign a b := by
  rw [sign, sign]
  obtain hlt | rfl | hgt := lt_trichotomy a b
  · simp [hlt, hlt.not_gt, hlt.ne']
  · simp
  · simp [hgt, hgt.not_gt, hgt.ne']

theorem num_lt_chr (d : Int) (n : Nat) : Tok.num n < Tok.chr d ↔ 48 < d := by
  rw [Tok.num, Tok.chr, Prod.Lex.toLex_lt_toLex]
  dsimp only
  omega

theorem chr_lt_num {d : Int} (hd : d ≠ 48) (n : Nat) : Tok.chr d < Tok.num n ↔ d < 48 := by
  rw [Tok.num, Tok.chr, Prod.Lex.toLex_lt_toLex]
  dsimp only
  omega

theorem num_lt_num (m n : Nat) : Tok.num m < Tok.num n ↔ m < n := by
  rw [Tok.num, Tok.num, Prod.Lex.toLex_lt_toLex]
  simp

theorem chr_lt_chr (c d : Int) : Tok.chr c < Tok.chr d ↔ c < d := by
  rw [Tok.chr, Tok.chr, Prod.Lex.toLex_lt_toLex]
  simp

theorem num_inj {m n : Nat} : Tok.num m = Tok.num n ↔ m = n := by
  simp [Tok.num]

theorem chr_inj {c d : Int} : Tok.chr c = Tok.chr d ↔ c = d := by
  simp [Tok.chr]

theorem num_ne_chr {d : Int} (hd : d ≠ 48) (n : Nat) : Tok.num n ≠ Tok.chr d := by
  intro heq
  simp only [Tok.num, Tok.chr, EmbeddingLike.apply_eq_iff_eq, Prod.mk.injEq] at heq
  exact hd heq.1.symm

theorem tokens_ne_nil (abi : Abi) (c : UB) (s : List UB) : tokens abi (c :: s) ≠ [] := by
  cases hc : isDigit c with
  | true => simp [tokens_digit hc]
  | false => simp [tokens_char hc]

theorem readable_apart {max : Nat} {t u : Tok} (hne : t ≠ u)
    (hchr : (ofLex t).1 ≠ 48 ∨ (ofLex u).1 ≠ 48) (ts us : List Tok) :
    Readable max (t :: ts) (u :: us) :=
  ⟨fun ht hu => hchr.elim (absurd ht) (absurd hu), fun heq => absurd heq hne⟩

-- The turn of the comparison that reads a number of both.
theorem naturalLoop_numbers {c1 c2 : UB} (h1 : isDigit c1 = true) (h2 : isDigit c2 = true)
    (fuel : Nat) (s1 s2 : List UB) : naturalLoop abi (fuel + 1) (c1 :: s1) (c2 :: s2) =
      if (digits 0 (c1 :: s1)).1 ≤ abi.longMax ∧ (digits 0 (c2 :: s2)).1 ≤ abi.longMax then
        if (digits 0 (c1 :: s1)).1 = (digits 0 (c2 :: s2)).1 then
          naturalLoop abi fuel (digits 0 (c1 :: s1)).2 (digits 0 (c2 :: s2)).2
        else some (if (digits 0 (c1 :: s1)).1 < (digits 0 (c2 :: s2)).1 then -1 else 1)
      else none := by
  rw [naturalLoop, h1, h2, Bool.and_self, if_pos rfl, readDigits_eq (Nat.zero_le _),
    readDigits_eq (Nat.zero_le _), ite_and, Option.bind_eq_bind]
  by_cases hn1 : (digits 0 (c1 :: s1)).1 ≤ abi.longMax
  · rw [if_pos hn1, if_pos hn1, Option.bind_some]
    by_cases hn2 : (digits 0 (c2 :: s2)).1 ≤ abi.longMax
    · rw [if_pos hn2, if_pos hn2]
      dsimp only [Option.bind_eq_bind, Option.bind_some]
      rw [ite_not]
    · rw [if_neg hn2, if_neg hn2]
      rfl
  · rw [if_neg hn1, if_neg hn1]
    rfl

-- Any other turn
theorem naturalLoop_chars {c1 c2 : UB} (h : isDigit c1 = false ∨ isDigit c2 = false)
    (fuel : Nat) (s1 s2 : List UB) : naturalLoop abi (fuel + 1) (c1 :: s1) (c2 :: s2) =
      if fold (charValue abi c1) = fold (charValue abi c2) then naturalLoop abi fuel s1 s2
      else some (if fold (charValue abi c1) < fold (charValue abi c2) then -1 else 1) := by
  have hno : ¬ (isDigit c1 && isDigit c2) = true := by
    rw [Bool.and_eq_true]
    rintro ⟨h1, h2⟩
    obtain h | h := h
    · exact Bool.noConfusion (h.symm.trans h1)
    · exact Bool.noConfusion (h.symm.trans h2)
  rw [naturalLoop, if_neg hno]
  exact ite_not ..

-- Where it does not overflow, the comparison is the one of the lists of characters and numbers.
theorem naturalLoop_iff {fuel : Nat} (hfuel : s1.length < fuel) (r : Int) :
    naturalLoop abi fuel s1 s2 = some r ↔
      Readable abi.longMax (tokens abi s1) (tokens abi s2) ∧
        r = sign (tokens abi s1) (tokens abi s2) := by
  induction fuel generalizing s1 s2 with
  | zero => omega
  | succ fuel ih =>
      match s1, s2 with
      | [], [] =>
          simp [naturalLoop, tokens, tokensFrom, Readable, sign, eq_comm]
      | [], c :: s =>
          obtain ⟨t, ts, htok⟩ := List.exists_cons_of_ne_nil (tokens_ne_nil abi c s)
          rw [htok, tokens, tokensFrom, sign_nil_cons]
          simp [naturalLoop, Readable, eq_comm]
      | c :: s, [] =>
          obtain ⟨t, ts, htok⟩ := List.exists_cons_of_ne_nil (tokens_ne_nil abi c s)
          rw [htok, tokens, tokensFrom, sign_cons_nil]
          simp [naturalLoop, Readable, eq_comm]
      | c1 :: s1, c2 :: s2 =>
          rw [List.length_cons] at hfuel
          cases h1 : isDigit c1 with
          | true =>
              cases h2 : isDigit c2 with
              | true =>
                  have hlen1 : (digits 0 (c1 :: s1)).2.length < fuel := by
                    have hlen := length_digits (0 * 10 + (c1.toNat - 48)) s1
                    rw [digits, if_pos h1]
                    omega
                  rw [naturalLoop_numbers h1 h2, tokens_digit h1, tokens_digit h2, sign_cons,
                    Readable]
                  simp only [num_inj, num_lt_num]
                  by_cases hfits : (digits 0 (c1 :: s1)).1 ≤ abi.longMax ∧
                      (digits 0 (c2 :: s2)).1 ≤ abi.longMax
                  · rw [if_pos hfits]
                    by_cases heq : (digits 0 (c1 :: s1)).1 = (digits 0 (c2 :: s2)).1
                    · rw [if_pos heq, if_pos heq, ih hlen1]
                      exact and_congr_left' ⟨fun h => ⟨fun _ _ => hfits, fun _ => h⟩,
                        fun h => h.2 heq⟩
                    · rw [if_neg heq, if_neg heq, Option.some.injEq]
                      exact ⟨fun h => ⟨⟨fun _ _ => hfits, fun h => absurd h heq⟩, h.symm⟩,
                        fun h => h.2.symm⟩
                  · rw [if_neg hfits]
                    exact ⟨nofun, fun h => absurd (h.1.1 rfl rfl) hfits⟩
              | false =>
                  obtain ⟨hne, hchr, hlt⟩ := char_apart abi h2 h1
                  rw [naturalLoop_chars (.inr h2), if_neg hchr, tokens_digit h1, tokens_char h2,
                    sign_apart (num_ne_chr hne _)]
                  simp only [num_lt_chr, hlt, Option.some.injEq]
                  exact ⟨fun heq => ⟨readable_apart (num_ne_chr hne _) (.inr hne) _ _, heq.symm⟩,
                    fun heq => heq.2.symm⟩
          | false =>
              rw [naturalLoop_chars (.inl h1), tokens_char h1]
              cases h2 : isDigit c2 with
              | true =>
                  obtain ⟨hne, hchr, hlt⟩ := char_apart abi h1 h2
                  rw [if_neg hchr.symm, tokens_digit h2, sign_apart (num_ne_chr hne _).symm]
                  have hback : fold (charValue abi c1) < fold (charValue abi c2) ↔
                      fold (charValue abi c1) < 48 := by omega
                  simp only [chr_lt_num hne, hback, Option.some.injEq]
                  exact ⟨fun heq =>
                    ⟨readable_apart (num_ne_chr hne _).symm (.inl hne) _ _, heq.symm⟩,
                    fun heq => heq.2.symm⟩
              | false =>
                  rw [tokens_char h2, sign_cons, Readable]
                  simp only [chr_inj, chr_lt_chr]
                  have hvalue := char_value abi h1
                  have hne : fold (charValue abi c1) ≠ 48 := by omega
                  by_cases heq : fold (charValue abi c1) = fold (charValue abi c2)
                  · rw [if_pos heq, if_pos heq, ih (Nat.lt_of_succ_lt_succ hfuel)]
                    exact and_congr_left' ⟨fun h => ⟨fun h1 => absurd h1 hne, fun _ => h⟩,
                      fun h => h.2 heq⟩
                  · rw [if_neg heq, if_neg heq, Option.some.injEq]
                    exact ⟨fun h => ⟨⟨fun h1 => absurd h1 hne, fun h => absurd h heq⟩, h.symm⟩,
                      fun h => h.2.symm⟩

theorem naturalCompare_iff (r : Int) : naturalCompare abi s1 s2 = some r ↔
    Readable abi.longMax (tokens abi s1) (tokens abi s2) ∧
      r = sign (tokens abi s1) (tokens abi s2) :=
  naturalLoop_iff (Nat.lt_succ_self _) r

theorem num_of_fst {t : Tok} (ht : (ofLex t).1 = 48) : t = .num (ofLex t).2 :=
  congrArg toLex (Prod.ext ht rfl)

-- Against itself a name is read to its end.
theorem readable_self {max : Nat} {ts : List Tok} :
    Readable max ts ts ↔ ∀ n, .num n ∈ ts → n ≤ max := by
  induction ts with
  | nil => simp [Readable]
  | cons t ts ih =>
      rw [Readable, ih]
      constructor
      · rintro ⟨hhead, htail⟩ n hn
        obtain rfl | hmem := List.mem_cons.mp hn
        · exact (hhead rfl rfl).1
        · exact htail rfl n hmem
      · intro h
        refine ⟨fun ht _ => ?_, fun _ n hn => h n (List.mem_cons_of_mem _ hn)⟩
        have hle := h (ofLex t).2 (List.mem_cons.mpr (.inl (num_of_fst ht).symm))
        exact ⟨hle, hle⟩

theorem readable_of_fits {max : Nat} {ts us : List Tok} (hts : ∀ n, .num n ∈ ts → n ≤ max)
    (hus : ∀ n, .num n ∈ us → n ≤ max) : Readable max ts us := by
  induction ts generalizing us with
  | nil => exact trivial
  | cons t ts ih =>
      cases us with
      | nil => exact trivial
      | cons u us =>
          refine ⟨fun ht hu => ⟨hts _ ?_, hus _ ?_⟩, fun _ => ih ?_ ?_⟩
          · exact List.mem_cons.mpr (.inl (num_of_fst ht).symm)
          · exact List.mem_cons.mpr (.inl (num_of_fst hu).symm)
          · exact fun n hn => hts n (List.mem_cons_of_mem _ hn)
          · exact fun n hn => hus n (List.mem_cons_of_mem _ hn)

theorem naturalCompare_fits (h1 : Fits abi s1) (h2 : Fits abi s2) :
    naturalCompare abi s1 s2 = some (sign (tokens abi s1) (tokens abi s2)) :=
  (naturalCompare_iff _).mpr ⟨readable_of_fits h1 h2, rfl⟩

theorem fits_of_self {r : Int} (h : naturalCompare abi s s = some r) : Fits abi s :=
  readable_self.mp ((naturalCompare_iff r).mp h).1

def tagKey (tag : List UB) : List Nat := tag.map UInt8.toNat

theorem strcmp_eq (a b : List UB) : strcmp a b = sign (tagKey a) (tagKey b) := by
  induction a generalizing b with
  | nil =>
      cases b with
      | nil => rfl
      | cons y b => rw [strcmp, tagKey, tagKey, List.map_nil, List.map_cons, sign_nil_cons]
  | cons x a ih =>
      cases b with
      | nil => rw [strcmp, tagKey, tagKey, List.map_nil, List.map_cons, sign_cons_nil]
      | cons y b =>
          rw [strcmp, ih, tagKey, tagKey, tagKey, tagKey, List.map_cons, List.map_cons, sign_cons]
          simp only [UInt8.toNat_inj, UInt8.lt_iff_toNat_lt]

def groupKey (abi : Abi) (i : Item) : List Nat ×ₗ Int ×ₗ List Tok :=
  toLex (tagKey i.iconTag, toLex (getTocOrder i.path i.name, tokens abi i.name))

-- `a` is strictly before `b` by the key of the mode.
def Before (abi : Abi) (sortMode : Int) (a b : Item) : Prop :=
  if sortMode = 1 then tokens abi a.name < tokens abi b.name
  else if sortMode = 2 then a.robjId < b.robjId
  else if sortMode = 3 then b.sizeBytes < a.sizeBytes
  else groupKey abi a < groupKey abi b

variable {sortMode : Int} {items : List Item} {a b : Item} {r : Bool}

theorem nameAfter_before (h : nameAfter abi a b = some r) :
    r = true ↔ tokens abi b.name < tokens abi a.name := by
  obtain ⟨q, hq, rfl⟩ := Option.map_eq_some_iff.mp h
  rw [((naturalCompare_iff q).mp hq).2, decide_eq_true_iff, gt_iff_lt, sign_pos]

-- Where the comparison does not overflow, it is the one by the key.
theorem swapItems_before (h : swapItems abi sortMode a b = some r) :
    r = true ↔ Before abi sortMode b a := by
  rw [swapItems, strcmp_eq] at h
  simp only [gt_iff_lt, sign_pos, sign_eq_zero] at h
  rw [Before]
  split_ifs at h ⊢ with h1 h2 h3 htag hsame horder htoc
  · exact nameAfter_before h
  · rw [← Option.some.inj h, decide_eq_true_iff]
  · rw [← Option.some.inj h, decide_eq_true_iff]
  all_goals rw [groupKey, groupKey, Prod.Lex.toLex_lt_toLex, Prod.Lex.toLex_lt_toLex]
  all_goals dsimp only
  · simp [← Option.some.inj h, htag]
  · simp [← Option.some.inj h, hsame, horder]
  · simp [nameAfter_before h, hsame, htoc]
  · simp [← Option.some.inj h, hsame, horder, Ne.symm htoc]
  · simp [← Option.some.inj h, htag, Ne.symm hsame]

theorem swapItems_fits (ha : Fits abi a.name) (hb : Fits abi b.name) (sortMode : Int) :
    ∃ r, swapItems abi sortMode a b = some r := by
  rw [swapItems, nameAfter, naturalCompare_fits ha hb]
  dsimp only
  split_ifs
  all_goals exact ⟨_, rfl⟩

theorem exists_key (abi : Abi) (sortMode : Int) : ∃ (κ : Type) (_ : LinearOrder κ)
    (key : Item → κ), ∀ a b, Before abi sortMode a b ↔ key a < key b := by
  simp only [Before]
  split_ifs
  · exact ⟨List Tok, inferInstance, fun i => tokens abi i.name, fun _ _ => .rfl⟩
  · exact ⟨Int, inferInstance, Item.robjId, fun _ _ => .rfl⟩
  · exact ⟨OrderDual Nat, inferInstance, fun i => .toDual i.sizeBytes, fun _ _ => .rfl⟩
  · exact ⟨_, inferInstance, groupKey abi, fun _ _ => .rfl⟩

-- Any two of these can be compared, either way.
def Comparable (abi : Abi) (sortMode : Int) (items : List Item) : Prop :=
  items.Pairwise fun a b =>
    (swapItems abi sortMode a b).isSome ∧ (swapItems abi sortMode b a).isSome

theorem swapsBy_comparable {key : Item → κ}
    (hkey : ∀ a b, Before abi sortMode a b ↔ key a < key b)
    (hcomp : Comparable abi sortMode items) :
    items.Pairwise (SwapsBy (swapItems abi sortMode) key) := by
  refine hcomp.imp fun {a b} hab => ?_
  obtain ⟨r, hr⟩ := Option.isSome_iff_exists.mp hab.1
  obtain ⟨q, hq⟩ := Option.isSome_iff_exists.mp hab.2
  exact ⟨⟨r, hr, (swapItems_before hr).trans (hkey b a)⟩,
    ⟨q, hq, (swapItems_before hq).trans (hkey a b)⟩⟩

theorem comparable_fits (hfits : ∀ i ∈ items, Fits abi i.name) (sortMode : Int) :
    Comparable abi sortMode items := by
  refine List.pairwise_of_forall_mem_list fun a ha b hb => ?_
  exact ⟨Option.isSome_iff_exists.mpr (swapItems_fits (hfits a ha) (hfits b hb) sortMode),
    Option.isSome_iff_exists.mpr (swapItems_fits (hfits b hb) (hfits a ha) sortMode)⟩

theorem cabinetSortItems_eq (sortMode : Int) (items : List Item) :
    cabinetSortItems abi sortMode items = exchangeSort (swapItems abi sortMode) items := by
  rw [cabinetSortItems]
  split
  · next hlen =>
      match items, hlen with
      | [], _ => rfl
      | [_], _ => rfl
  · rfl

theorem cabinetSortItems_spec (hcomp : Comparable abi sortMode items) :
    ∃ out, cabinetSortItems abi sortMode items = some out ∧ out.Perm items ∧
      out.Pairwise fun a b => ¬ Before abi sortMode b a := by
  obtain ⟨κ, _, key, hkey⟩ := exists_key abi sortMode
  obtain ⟨out, hout, hperm, hsorted⟩ := exchangeSort_spec (swapsBy_comparable hkey hcomp)
  refine ⟨out, (cabinetSortItems_eq _ _).trans hout, hperm, hsorted.imp fun {a b} hle => ?_⟩
  rw [hkey, not_lt]
  exact hle

def AtMost (abi : Abi) (s1 s2 : List UB) : Prop := ∃ r ≤ 0, naturalCompare abi s1 s2 = some r

-- On these names the comparison is total, and reads a run of digits as a number.
structure NaturalOrder (abi : Abi) (names : List (List UB)) : Prop where
  reads : ∀ s1 ∈ names, ∀ s2 ∈ names,
    naturalCompare abi s1 s2 = some (sign (tokens abi s1) (tokens abi s2))
  back : ∀ s1 ∈ names, ∀ s2 ∈ names,
    ∃ r, naturalCompare abi s1 s2 = some r ∧ naturalCompare abi s2 s1 = some (-r)
  trans : ∀ s1 ∈ names, ∀ s2 ∈ names, ∀ s3 ∈ names,
    AtMost abi s1 s2 → AtMost abi s2 s3 → AtMost abi s1 s3

-- What is asked of the comparison and of the sort that uses it
def SortsRight (abi : Abi) (items : List Item) : Prop :=
  NaturalOrder abi (items.map Item.name) ∧
    ∀ sortMode, ∃ out, cabinetSortItems abi sortMode items = some out ∧ out.Perm items ∧
      out.Pairwise fun a b => ¬ Before abi sortMode b a

theorem naturalOrder_fits {names : List (List UB)} (hfits : ∀ s ∈ names, Fits abi s) :
    NaturalOrder abi names where
  reads s1 h1 s2 h2 := naturalCompare_fits (hfits s1 h1) (hfits s2 h2)
  back s1 h1 s2 h2 := by
    refine ⟨_, naturalCompare_fits (hfits s1 h1) (hfits s2 h2), ?_⟩
    rw [← sign_comm]
    exact naturalCompare_fits (hfits s2 h2) (hfits s1 h1)
  trans s1 h1 s2 h2 s3 h3 := by
    rintro ⟨r, hr, h12⟩ ⟨q, hq, h23⟩
    rw [naturalCompare_fits (hfits s1 h1) (hfits s2 h2), Option.some.injEq] at h12
    rw [naturalCompare_fits (hfits s2 h2) (hfits s3 h3), Option.some.injEq] at h23
    rw [← h12, sign_nonpos] at hr
    rw [← h23, sign_nonpos] at hq
    exact ⟨_, sign_nonpos.mpr (hr.trans hq), naturalCompare_fits (hfits s1 h1) (hfits s3 h3)⟩

theorem sortsRight_iff (abi : Abi) (items : List Item) :
    SortsRight abi items ↔ ∀ i ∈ items, Fits abi i.name := by
  constructor
  · rintro ⟨horder, -⟩ i hi
    have hname : i.name ∈ items.map Item.name := List.mem_map_of_mem hi
    exact fits_of_self (horder.reads _ hname _ hname)
  · intro hfits
    exact ⟨naturalOrder_fits (List.forall_mem_map.mpr hfits),
      fun sortMode => cabinetSortItems_spec (comparable_fits hfits sortMode)⟩

-- The file "9223372036854775808.tad" beside "1.tad": its number is one more than the largest long.
theorem sortsRight_long : ¬ ∀ (abi : Abi) (items : List Item),
    (∀ i ∈ items, i.name.length ≤ 63 ∧ 0 ∉ i.name) → SortsRight abi items := by
  intro h
  have hname : naturalCompare ⟨true, 2 ^ 63 - 1⟩
      (utf8 "9223372036854775808.tad") (utf8 "1.tad") = none := by decide
  obtain ⟨horder, -⟩ := h ⟨true, 2 ^ 63 - 1⟩
    [⟨101, utf8 "9223372036854775808.tad", utf8 "tad_bin/9223372036854775808.tad", 100,
      utf8 "[doc]"⟩, ⟨102, utf8 "1.tad", utf8 "tad_bin/1.tad", 100, utf8 "[doc]"⟩] (by decide)
  have hread := horder.reads _ List.mem_cons_self _
    (List.mem_cons_of_mem _ (List.mem_singleton_self _))
  exact absurd (hname.symm.trans hread) (Option.some_ne_none _).symm

end BTron.Cabinet
