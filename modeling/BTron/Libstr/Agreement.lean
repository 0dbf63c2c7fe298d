import BTron.Libstr.Formats

namespace BTron.Printf

-- The numbers

theorem tmpDigits_eq {base : Nat} (hbase : 1 < base) (digit : Nat → UB) {size n : Nat}
    (hn : n < base ^ size) :
    tmpDigits base digit size n = (Nat.digits base n).map digit := by
  induction size generalizing n with
  | zero =>
      rw [Nat.pow_zero] at hn
      obtain rfl : n = 0 := by omega
      simp [tmpDigits]
  | succ size ih =>
      rw [tmpDigits]
      split
      · rename_i hpos
        rw [Nat.digits_def' hbase hpos, List.map_cons, ih]
        rw [Nat.pow_succ] at hn
        exact Nat.div_lt_of_lt_mul (by rw [Nat.mul_comm]; exact hn)
      · obtain rfl : n = 0 := by omega
        simp

theorem asUint_of_range {n : Nat} (hn : n < 4294967296) : asUint n = n := by
  rw [asUint]
  omega

theorem asInt_of_range {n : Int} (h : -2147483648 ≤ n ∧ n < 2147483648) : asInt n = n :=
  Int.bmod_eq_of_le (by omega) (by omega)

theorem asInt_eq (n : Int) : asInt n = (n + 2147483648) % 4294967296 - 2147483648 := by
  rw [asInt, Int.bmod_eq_emod]
  split <;> omega

theorem small_digits {n : Nat} (hn : n < 4294967296) : n < 10 ^ 32 ∧ n < 16 ^ 32 :=
  ⟨hn.trans (by decide), hn.trans (by decide)⟩

theorem intText_d {v : Int} (hv : -2147483648 ≤ v ∧ v < 2147483648) :
    intText false (asInt v) = Conv.sign .d v ++ Conv.digits .d v := by
  rw [asInt_of_range hv, intText, Conv.sign, Conv.digits]
  by_cases hzero : v = 0
  · subst hzero
    rfl
  · have habs : asUint (if v < 0 then -v else v) = v.natAbs := by
      rw [asUint]
      split <;> omega
    have hsmall := small_digits (n := v.natAbs) (by omega)
    rw [if_neg hzero, if_neg hzero]
    simp only [Bool.not_false, Bool.true_and, decide_eq_true_eq, habs, true_and]
    rw [tmpDigits_eq (by decide) _ hsmall.1]

theorem intText_u {v : Int} (hv : 0 ≤ v ∧ v < 4294967296) :
    intText true (asInt v.toNat) = Conv.sign .u v ++ Conv.digits .u v := by
  obtain ⟨n, rfl⟩ := Int.eq_ofNat_of_zero_le hv.1
  have hval : asUint (asInt n) = n := by
    rw [asUint, asInt_eq]
    omega
  have hzero : asInt n = 0 ↔ (n : Int) = 0 := by
    rw [asInt_eq]
    omega
  have hsmall := small_digits (n := n) (by omega)
  simp only [intText, Conv.sign, Conv.digits, Int.toNat_natCast, hzero, Bool.not_true,
    Bool.false_and, hval, Int.natAbs_natCast, reduceCtorEq, false_and, if_false,
    List.nil_append]
  split
  · rfl
  · rw [tmpDigits_eq (by decide) _ hsmall.1]

theorem hexText_eq {v : Int} (hv : 0 ≤ v ∧ v < 4294967296) :
    hexText (asUint v.toNat) = Conv.sign .x v ++ Conv.digits .x v := by
  obtain ⟨n, rfl⟩ := Int.eq_ofNat_of_zero_le hv.1
  have hsmall := small_digits (n := n) (by omega)
  rw [Int.toNat_natCast, asUint_of_range (by omega), hexText, Conv.sign, Conv.digits]
  simp only [Int.natAbs_natCast, Int.natCast_eq_zero, reduceCtorEq, false_and, if_false,
    List.nil_append]
  split
  · rfl
  · rw [tmpDigits_eq (by decide) _ hsmall.2]

-- The width

theorem digits_decimal (n : Nat) : ∀ k ∈ Nat.digits 10 n, k < 10 :=
  fun _ hk => Nat.digits_lt_base (by decide) hk

theorem decimalDigit_range {k : Nat} (hk : k < 10) :
    (0x30 ≤ decimalDigit k ∧ decimalDigit k ≤ 0x39) ∧ (decimalDigit k).toNat - 0x30 = k := by
  revert hk
  revert k
  decide

theorem widthDigits_cons {k : Nat} (hk : k < 10) (format : List UB) (width : Nat) :
    widthDigits (decimalDigit k :: format) width = widthDigits format (width * 10 + k) := by
  obtain ⟨hin, hval⟩ := decimalDigit_range hk
  rw [widthDigits, if_pos hin, hval]

theorem widthDigits_digits {ds : List Nat} (hds : ∀ k ∈ ds, k < 10) (format : List UB)
    (width : Nat) : widthDigits ((ds.map decimalDigit).reverse ++ format) width =
      widthDigits format (width * 10 ^ ds.length + Nat.ofDigits 10 ds) := by
  induction ds generalizing format with
  | nil => simp
  | cons k ds ih =>
      rw [List.forall_mem_cons] at hds
      rw [List.map_cons, List.reverse_cons, List.append_assoc, List.singleton_append,
        ih hds.2, widthDigits_cons hds.1, List.length_cons, Nat.ofDigits_cons]
      congr 1
      rw [Nat.pow_succ]
      ring

theorem widthDigits_decimal (zero : Bool) (width : Nat) {c : UB} (hc : ¬(0x30 ≤ c ∧ c ≤ 0x39))
    (format : List UB) :
    widthDigits ((if zero then [0x30] else []) ++ (decimal width ++ c :: format)) 0 =
      (width, c :: format) := by
  have hwidth : widthDigits (decimal width ++ c :: format) 0 = (width, c :: format) := by
    rw [decimal, widthDigits_digits (digits_decimal width), Nat.ofDigits_digits, Nat.zero_mul,
      Nat.zero_add, widthDigits, if_neg hc]
  cases zero with
  | false => exact hwidth
  | true => exact (widthDigits_cons (k := 0) (by decide) _ 0).trans hwidth

-- The conversions

-- What `tkl_vsnprintf` writes for a piece without `l`.
def Piece.written : Piece → List UB
  | .str true width s => padded true width s
  | .str false _ s => s
  | .chr _ _ v => [UInt8.ofNat (v % 256).toNat]
  | .num _ _ _ _ .X v => Conv.sign .x v ++ Conv.digits .x v
  | .num _ _ _ _ conv v => conv.sign v ++ conv.digits v
  | p => p.text

def Piece.IsLong : Piece → Prop
  | .num _ _ _ long _ _ => long = true
  | _ => False

theorem strText_eq (minus : Bool) {width : Nat} {s : List UB} (hs : s.length < 2147483648) :
    strText minus width s = Piece.written (.str minus width s) := by
  rw [strText, asInt_of_range (by omega)]
  cases minus with
  | false => simp [Piece.written]
  | true =>
      simp only [Piece.written, padded, if_true, true_and]
      congr 1
      split
      · congr 1
        omega
      · rw [Nat.sub_eq_zero_of_le (by omega)]
        rfl

theorem convert_conv {conv : Conv} {v : Int} (hv : conv ≠ .d → 0 ≤ v)
    (hrange : if conv = .d then -2147483648 ≤ v ∧ v < 2147483648 else v < 4294967296)
    (leftAlign minus zero : Bool) (width width' : Nat) (ap : List Arg) :
    convert conv.letter leftAlign width ((Piece.num minus zero width' false conv v).args ++ ap) =
      some ((Piece.num minus zero width' false conv v).written, ap,
        (Piece.num minus zero width' false conv v).meant) := by
  cases conv with
  | d =>
      rw [if_pos rfl] at hrange
      simp [convert, Conv.letter, Piece.args, Piece.written, Piece.meant, vaInt, intText_d hrange]
  | u =>
      rw [if_neg (by decide)] at hrange
      simp [convert, Conv.letter, Piece.args, Piece.written, Piece.meant, vaInt,
        ← intText_u ⟨hv (by decide), hrange⟩]
  | x =>
      rw [if_neg (by decide)] at hrange
      simp [convert, Conv.letter, Piece.args, Piece.written, Piece.meant, vaUint,
        ← hexText_eq ⟨hv (by decide), hrange⟩]
  | X =>
      rw [if_neg (by decide)] at hrange
      simp [convert, Conv.letter, Piece.args, Piece.written, Piece.meant, vaUint,
        ← hexText_eq ⟨hv (by decide), hrange⟩]

theorem convert_chr (leftAlign minus : Bool) (width width' : Nat) (v : Int) (ap : List Arg) :
    convert 0x63 leftAlign width ((Piece.chr minus width' v).args ++ ap) =
      some ((Piece.chr minus width' v).written, ap, (Piece.chr minus width' v).meant) := by
  have hbyte : UInt8.ofNat (asUint (asInt v)) = UInt8.ofNat (v % 256).toNat := by
    apply UInt8.toNat_inj.mp
    rw [UInt8.toNat_ofNat', UInt8.toNat_ofNat', asUint, asInt_eq]
    omega
  simp [convert, Piece.args, Piece.written, Piece.meant, vaInt, hbyte]

theorem convert_str (minus : Bool) (width : Nat) {s : List UB} (hs : s.length < 2147483648)
    (ap : List Arg) :
    convert 0x73 minus width ((Piece.str minus width s).args ++ ap) =
      some ((Piece.str minus width s).written, ap, (Piece.str minus width s).meant) := by
  simp [convert, Piece.args, Piece.meant, vaStr, strText_eq minus hs]

-- One turn of the loop

theorem no_minus (zero : Bool) (width : Nat) {c : UB} (hc : c ≠ 0x2D) (format : List UB) :
    ((if zero then [0x30] else []) ++ (decimal width ++ c :: format)).head? ≠ some 0x2D := by
  cases zero with
  | true => simp
  | false =>
      intro hhead
      rw [if_neg (by decide), List.nil_append] at hhead
      cases hdec : decimal width with
      | nil =>
          rw [hdec, List.nil_append, List.head?_cons] at hhead
          exact hc (Option.some.inj hhead)
      | cons d ds =>
          rw [hdec, List.cons_append, List.head?_cons] at hhead
          have hd : d ∈ decimal width := hdec ▸ List.mem_cons_self
          rw [decimal, List.mem_reverse, List.mem_map] at hd
          obtain ⟨k, hk, hdk⟩ := hd
          have hin := (decimalDigit_range (digits_decimal width k hk)).1
          rw [hdk, Option.some.inj hhead] at hin
          exact absurd hin (by decide)

theorem formatLoop_spec (fuel : Nat) (minus zero : Bool) (width : Nat) {c : UB}
    (hdigit : ¬(0x30 ≤ c ∧ c ≤ 0x39)) (hc : c ≠ 0x2D) (cs rest : List UB) (ap : List Arg)
    {room : Nat} (hroom : room ≠ 0) :
    formatLoop (fuel + 1) (spec minus zero width (c :: cs) ++ rest) ap room =
      (convert c minus width ap).bind fun (text, ap, took) =>
        (formatLoop fuel (cs ++ rest) ap (room - (text.take room).length)).map
          (Out.push (text.take room) took) := by
  have hbody := widthDigits_decimal zero width hdigit (cs ++ rest)
  have hhead := no_minus zero width hc (cs ++ rest)
  generalize hb : (if zero then [0x30] else []) ++ (decimal width ++ c :: (cs ++ rest)) = body at *
  have hne : body ≠ [] := by
    rintro rfl
    simp [widthDigits] at hbody
  have hspec : spec minus zero width (c :: cs) ++ rest =
      0x25 :: ((if minus then [0x2D] else []) ++ body) := by
    rw [← hb, spec]
    simp
  rw [hspec, formatLoop, if_neg hroom, if_neg (by decide)]
  cases minus with
  | true => simp [hbody]
  | false => simp [hne, hhead, hbody]

-- A piece without `l` is one turn.
theorem formatLoop_piece {p : Piece} (hvalid : p.Valid) (hlong : ¬p.IsLong)
    (hlen : p.text.length < 2147483648) (fuel : Nat) (rest : List UB) (ap : List Arg) {room : Nat}
    (hroom : room ≠ 0) :
    formatLoop (fuel + 1) (p.format ++ rest) (p.args ++ ap) room =
      (formatLoop fuel rest ap (room - (p.written.take room).length)).map
        (Out.push (p.written.take room) p.meant) := by
  obtain ⟨k, rfl⟩ := Nat.exists_eq_add_of_lt (Nat.pos_of_ne_zero hroom)
  cases p with
  | lit c =>
      have hc : c ≠ 0x25 := hvalid.1
      simp [Piece.format, Piece.args, Piece.written, Piece.text, Piece.meant, formatLoop, hc]
  | percent =>
      simp [Piece.format, Piece.args, Piece.written, Piece.text, Piece.meant, formatLoop,
        widthDigits, convert]
  | chr minus width v =>
      rw [Piece.format, formatLoop_spec fuel minus false width (by decide) (by decide) [] rest _
        hroom, convert_chr]
      rfl
  | str minus width s =>
      have hs : s.length < 2147483648 := by
        simp only [Piece.text, padded] at hlen
        split at hlen <;> rw [List.length_append] at hlen <;> omega
      rw [Piece.format, formatLoop_spec fuel minus false width (by decide) (by decide) [] rest _
        hroom, convert_str minus width hs]
      rfl
  | num minus zero width long conv v =>
      have hfalse : long = false := by
        rw [Piece.IsLong, Bool.not_eq_true] at hlong
        exact hlong
      subst hfalse
      obtain ⟨-, hnonneg, hrange⟩ := hvalid
      have hdigit : ¬(0x30 ≤ conv.letter ∧ conv.letter ≤ 0x39) ∧ conv.letter ≠ 0x2D := by
        cases conv <;> decide
      rw [Piece.format, if_neg (by decide), formatLoop_spec fuel minus zero width hdigit.1 hdigit.2
        [] rest _ hroom, convert_conv hnonneg (hrange rfl)]
      rfl

-- The text written and the text of the standard

theorem padded_length (minus : Bool) (width : Nat) (text : List UB) :
    (padded minus width text).length = max width text.length := by
  rw [padded]
  split <;> rw [List.length_append, List.length_replicate] <;> omega

theorem padded_of_le (minus : Bool) {width : Nat} {text : List UB} (h : width ≤ text.length) :
    padded minus width text = text := by
  rw [padded, Nat.sub_eq_zero_of_le h]
  split <;> simp

theorem padded_eq_iff (minus : Bool) (width : Nat) (text : List UB) :
    text = padded minus width text ↔ width ≤ text.length := by
  constructor
  · intro h
    have hlen := congrArg List.length h
    rw [padded_length] at hlen
    omega
  · exact fun h => (padded_of_le minus h).symm

theorem upperDigit_eq_iff {k : Nat} (hk : k < 16) : hexDigit k = upperDigit k ↔ k < 10 := by
  revert hk
  revert k
  decide

theorem digits_X_eq_iff (v : Int) : Conv.digits .x v = Conv.digits .X v ↔
    ∀ k ∈ Nat.digits 16 v.natAbs, k < 10 := by
  rw [Conv.digits, Conv.digits]
  by_cases hzero : v = 0
  · subst hzero
    simp
  · rw [if_neg hzero, if_neg hzero, List.reverse_inj, List.map_inj_left]
    exact forall₂_congr fun k hk => upperDigit_eq_iff (Nat.digits_lt_base (by decide) hk)

theorem digits_X_length (v : Int) : (Conv.digits .x v).length = (Conv.digits .X v).length := by
  rw [Conv.digits, Conv.digits]
  split <;> simp

-- The number without padding, and as it is written.
def numText (conv : Conv) (v : Int) : List UB := conv.sign v ++ conv.digits v

def lowerConv : Conv → Conv
  | .X => .x
  | conv => conv

theorem written_num (minus zero long : Bool) (width : Nat) (conv : Conv) (v : Int) :
    (Piece.num minus zero width long conv v).written = numText (lowerConv conv) v := by
  cases conv <;> rfl

theorem numText_length (conv : Conv) (v : Int) :
    (numText (lowerConv conv) v).length = (numText conv v).length := by
  cases conv
  case X => simp only [numText, lowerConv, Conv.sign, List.length_append, digits_X_length,
    reduceCtorEq, false_and, if_false]
  all_goals rfl

theorem numText_eq_iff (conv : Conv) (v : Int) : numText (lowerConv conv) v = numText conv v ↔
    (conv = .X → ∀ k ∈ Nat.digits 16 v.natAbs, k < 10) := by
  cases conv
  case X =>
    simp only [numText, lowerConv, Conv.sign, reduceCtorEq, false_and, if_false, List.nil_append,
      digits_X_eq_iff, true_imp_iff]
  all_goals simp [lowerConv]

theorem text_num_length (minus zero long : Bool) (width : Nat) (conv : Conv) (v : Int) :
    (Piece.num minus zero width long conv v).text.length = max width (numText conv v).length := by
  simp only [Piece.text, numText]
  split
  · simp only [List.length_append, List.length_replicate]
    omega
  · exact padded_length _ _ _

theorem text_num_of_le (minus zero long : Bool) {width : Nat} {conv : Conv} {v : Int}
    (h : width ≤ (numText conv v).length) :
    (Piece.num minus zero width long conv v).text = numText conv v := by
  simp only [Piece.text]
  rw [numText] at h
  split
  · rw [Nat.sub_eq_zero_of_le h]
    rfl
  · exact padded_of_le _ h

theorem written_eq_iff {p : Piece} (hlong : ¬p.IsLong) : p.written = p.text ↔ p.Kept := by
  cases p with
  | lit c => simp [Piece.written, Piece.text, Piece.Kept]
  | percent => simp [Piece.written, Piece.text, Piece.Kept]
  | chr minus width v => exact padded_eq_iff minus width _
  | str minus width s =>
      cases minus with
      | true => simp [Piece.written, Piece.text, Piece.Kept]
      | false =>
          rw [Piece.Kept]
          simp only [Bool.false_eq_true, false_or]
          exact padded_eq_iff false width s
  | num minus zero width long conv v =>
      have hfalse : long = false := by
        rw [Piece.IsLong, Bool.not_eq_true] at hlong
        exact hlong
      rw [written_num, Piece.Kept, ← numText]
      constructor
      · intro heq
        have hlen := congrArg List.length heq
        rw [numText_length, text_num_length] at hlen
        have hle : width ≤ (numText conv v).length := by omega
        rw [text_num_of_le minus zero long hle, numText_eq_iff] at heq
        exact ⟨hfalse, hle, heq⟩
      · rintro ⟨-, hle, hX⟩
        rw [text_num_of_le minus zero long hle, numText_eq_iff]
        exact hX

-- Formats whose pieces are all kept

theorem format_cons (p : Piece) : ∃ c cs, p.format = c :: cs := by
  cases p <;> exact ⟨_, _, rfl⟩

theorem formatLoop_full (fuel : Nat) (format : List UB) (ap : List Arg) :
    formatLoop (fuel + 1) format ap 0 = some ⟨[], []⟩ := by
  cases format <;> rfl

theorem c99_cons (p : Piece) (ps : List Piece) : c99 (p :: ps) = p.text ++ c99 ps := rfl

theorem formatOf_cons (p : Piece) (ps : List Piece) :
    formatOf (p :: ps) = p.format ++ formatOf ps := rfl

theorem argsOf_cons (p : Piece) (ps : List Piece) : argsOf (p :: ps) = p.args ++ argsOf ps := rfl

theorem meantOf_cons (p : Piece) (ps : List Piece) :
    meantOf (p :: ps) = p.meant ++ meantOf ps := rfl

theorem formatLoop_kept {ps : List Piece} (hvalid : ∀ p ∈ ps, p.Valid)
    (hlong : ∀ p ∈ ps, ¬p.IsLong) (hlen : (c99 ps).length < 2147483648)
    (hkept : ∀ p ∈ ps, p.written = p.text) {fuel : Nat} (hfuel : ps.length < fuel) (room : Nat) :
    ∃ o, formatLoop fuel (formatOf ps) (argsOf ps) room = some o ∧
      o.bytes = (c99 ps).take room ∧ o.taken <+: meantOf ps := by
  induction ps generalizing fuel room with
  | nil =>
      obtain ⟨n, rfl⟩ := Nat.exists_eq_add_of_lt hfuel
      exact ⟨⟨[], []⟩, by simp [formatOf, formatLoop], by simp [c99], List.nil_prefix⟩
  | cons p ps ih =>
      obtain ⟨n, rfl⟩ : ∃ n, fuel = n + 1 := ⟨fuel - 1, by omega⟩
      rw [List.length_cons] at hfuel
      rw [c99_cons, List.length_append] at hlen
      by_cases hroom : room = 0
      · subst hroom
        exact ⟨⟨[], []⟩, formatLoop_full _ _ _, by simp, List.nil_prefix⟩
      · have hfuel' : ps.length < n := by omega
        obtain ⟨o, hrun, hbytes, htaken⟩ := ih (fun q hq => hvalid q (List.mem_cons_of_mem p hq))
          (fun q hq => hlong q (List.mem_cons_of_mem p hq)) (by omega)
          (fun q hq => hkept q (List.mem_cons_of_mem p hq)) hfuel'
          (room - (p.written.take room).length)
        have hpiece := formatLoop_piece (hvalid p List.mem_cons_self) (hlong p List.mem_cons_self)
          (by omega) n (formatOf ps) (argsOf ps) hroom
        refine ⟨o.push (p.written.take room) p.meant, ?_, ?_, ?_⟩
        · rw [formatOf_cons, argsOf_cons, hpiece, hrun, Option.map_some]
        · have hrest : room - min room p.text.length = room - p.text.length := by omega
          simp only [Out.push, hbytes, hkept p List.mem_cons_self, c99_cons, List.take_append,
            List.length_take, hrest]
        · simp only [Out.push, meantOf_cons, List.prefix_append_right_inj]
          exact htaken

-- Formats with a piece that is not kept

def writtenOf (ps : List Piece) : List UB := ps.flatMap Piece.written

theorem writtenOf_cons (p : Piece) (ps : List Piece) :
    writtenOf (p :: ps) = p.written ++ writtenOf ps := rfl

theorem formatLoop_wide {ps : List Piece} (hvalid : ∀ p ∈ ps, p.Valid)
    (hlong : ∀ p ∈ ps, ¬p.IsLong) (hlen : (c99 ps).length < 2147483648) (fuel : Nat)
    (rest : List UB) (ap : List Arg) {room : Nat}
    (hroom : (writtenOf ps).length < room) :
    formatLoop (fuel + ps.length) (formatOf ps ++ rest) (argsOf ps ++ ap) room =
      (formatLoop fuel rest ap (room - (writtenOf ps).length)).map
        (Out.push (writtenOf ps) (meantOf ps)) := by
  induction ps generalizing room with
  | nil =>
      simp only [formatOf, argsOf, meantOf, writtenOf, List.flatMap_nil, List.nil_append,
        List.length_nil, Nat.add_zero, Nat.sub_zero]
      cases formatLoop fuel rest ap room <;> rfl
  | cons p ps ih =>
      rw [writtenOf_cons, List.length_append] at hroom
      rw [c99_cons, List.length_append] at hlen
      have htake : p.written.take room = p.written := List.take_of_length_le (by omega)
      have hroom₀ : room ≠ 0 := by omega
      have hroom' : (writtenOf ps).length < room - p.written.length := by omega
      have hpiece := formatLoop_piece (hvalid p List.mem_cons_self) (hlong p List.mem_cons_self)
        (by omega) (fuel + ps.length) (formatOf ps ++ rest) (argsOf ps ++ ap) hroom₀
      have hrest := ih (fun q hq => hvalid q (List.mem_cons_of_mem p hq))
        (fun q hq => hlong q (List.mem_cons_of_mem p hq)) (by omega) hroom'
      rw [htake, hrest] at hpiece
      simp only [formatOf_cons, argsOf_cons, meantOf_cons, writtenOf_cons, List.append_assoc,
        List.length_append, List.length_cons, ← Nat.add_assoc, Nat.sub_add_eq] at hpiece ⊢
      rw [hpiece, Option.map_map]
      congr 1
      funext o
      simp [Out.push]

-- An `l` is passed over as if it were the conversion, and the letter behind it is a literal.
theorem formatLoop_long (fuel : Nat) (minus zero : Bool) (width : Nat) (conv : Conv) (v : Int)
    (rest : List UB) (ap : List Arg) {room : Nat} (hroom : room ≠ 0) :
    formatLoop (fuel + 2) ((Piece.num minus zero width true conv v).format ++ rest) ap room =
      (formatLoop fuel rest ap (room - 1)).map (Out.push [conv.letter] []) := by
  have hletter : conv.letter ≠ 0x25 := by cases conv <;> decide
  have hskip : ∀ ap, convert 0x6C minus width ap = some ([], ap, []) := fun ap => by
    simp [convert]
  rw [Piece.format, if_pos rfl, formatLoop_spec (fuel + 1) minus zero width (by decide) (by decide)
    [conv.letter] rest ap hroom, hskip]
  simp [formatLoop, hroom, hletter]
  rfl

theorem written_length_le (p : Piece) : p.written.length ≤ p.text.length := by
  cases p with
  | lit c => exact Nat.le_refl _
  | percent => exact Nat.le_refl _
  | chr minus width v =>
      rw [Piece.text, padded_length]
      exact Nat.le_max_right _ _
  | str minus width s =>
      cases minus with
      | true => exact Nat.le_refl _
      | false =>
          rw [Piece.text, padded_length]
          exact Nat.le_max_right _ _
  | num minus zero width long conv v =>
      rw [written_num, text_num_length, numText_length]
      exact Nat.le_max_right _ _

-- The letters of the conversions of numbers
theorem letter_not_mem_digits (c : Conv) {k : Nat} (hk : k < 16) :
    (k < 10 → c.letter ≠ decimalDigit k) ∧ (c = .x ∨ c = .X → c.letter ≠ hexDigit k) ∧
      c.letter ≠ upperDigit k ∧ c.letter ≠ 0x20 ∧ c.letter ≠ 0x2D ∧ c.letter ≠ 0x30 := by
  revert hk
  revert k
  cases c <;> decide

theorem padded_count {c : UB} (hc : c ≠ 0x20) (minus : Bool) (width : Nat) (text : List UB) :
    (padded minus width text).count c = text.count c := by
  have hpad : (List.replicate (width - text.length) (0x20 : UB)).count c = 0 :=
    List.count_eq_zero.mpr fun hmem => hc (List.eq_of_mem_replicate hmem)
  rw [padded]
  split <;> rw [List.count_append, hpad] <;> omega

theorem text_num_count {c : UB} (hc : c ≠ 0x20) (hc₀ : c ≠ 0x30) (minus zero long : Bool)
    (width : Nat) (conv : Conv) (v : Int) :
    (Piece.num minus zero width long conv v).text.count c = (numText conv v).count c := by
  simp only [Piece.text]
  split
  · have hpad : ∀ n, (List.replicate n (0x30 : UB)).count c = 0 := fun n =>
      List.count_eq_zero.mpr fun hmem => hc₀ (List.eq_of_mem_replicate hmem)
    rw [numText, List.count_append, List.count_append, hpad, List.count_append]
    omega
  · exact padded_count hc _ _ _

theorem letter_not_mem_X (c : Conv) (v : Int) : c.letter ∉ numText .X v := by
  rw [numText, Conv.sign, Conv.digits]
  obtain ⟨-, -, -, -, -, hzero⟩ := letter_not_mem_digits c (k := 0) (by decide)
  simp only [reduceCtorEq, false_and, if_false, List.nil_append]
  split
  · rw [List.mem_singleton]
    exact hzero
  · rw [List.mem_reverse, List.mem_map]
    rintro ⟨k, hk, heq⟩
    have hlt := Nat.digits_lt_base (by decide) hk
    exact (letter_not_mem_digits c hlt).2.2.1 heq.symm

theorem letter_not_mem_self (conv : Conv) (v : Int) : conv.letter ∉ numText conv v := by
  obtain ⟨-, -, -, -, hminus, hzero⟩ := letter_not_mem_digits conv (k := 0) (by decide)
  rw [numText, List.mem_append, not_or]
  constructor
  · rw [Conv.sign]
    split
    · rw [List.mem_singleton]
      exact hminus
    · exact List.not_mem_nil
  · rw [Conv.digits.eq_def]
    split
    · rw [List.mem_singleton]
      exact hzero
    · cases conv <;> simp only [List.mem_reverse, List.mem_map] <;> rintro ⟨k, hk, heq⟩ <;>
        have hlt := Nat.digits_lt_base (by decide) hk
      · exact (letter_not_mem_digits .d (by omega)).1 hlt heq.symm
      · exact (letter_not_mem_digits .u (by omega)).1 hlt heq.symm
      · exact (letter_not_mem_digits .x hlt).2.1 (.inl rfl) heq.symm
      · exact (letter_not_mem_digits .X hlt).2.2.1 heq.symm

-- The standard's text has no more of these letters than what is written.
theorem text_count_le (c : Conv) (p : Piece) :
    p.text.count c.letter ≤ p.written.count c.letter := by
  obtain ⟨-, -, -, hspace, -, hzero⟩ := letter_not_mem_digits c (k := 0) (by decide)
  cases p with
  | lit c => exact Nat.le_refl _
  | percent => exact Nat.le_refl _
  | chr minus width v => exact (padded_count hspace minus width _).le
  | str minus width s =>
      cases minus with
      | true => exact Nat.le_refl _
      | false => exact (padded_count hspace false width s).le
  | num minus zero width long conv v =>
      rw [text_num_count hspace hzero, written_num]
      cases conv
      case X =>
        rw [List.count_eq_zero.mpr (letter_not_mem_X c v)]
        exact Nat.zero_le _
      all_goals exact Nat.le_refl _

theorem writtenOf_length_le (ps : List Piece) : (writtenOf ps).length ≤ (c99 ps).length := by
  induction ps with
  | nil => exact Nat.le_refl 0
  | cons p ps ih =>
      have hp := written_length_le p
      rw [writtenOf_cons, c99_cons, List.length_append, List.length_append]
      omega

theorem c99_count_le (c : Conv) (ps : List Piece) :
    (c99 ps).count c.letter ≤ (writtenOf ps).count c.letter := by
  induction ps with
  | nil => exact Nat.le_refl 0
  | cons p ps ih =>
      have hp := text_count_le c p
      rw [writtenOf_cons, c99_cons, List.count_append, List.count_append]
      omega

-- No piece makes up for another one that is too short.
theorem written_eq_of_all {ps : List Piece} (h : writtenOf ps = c99 ps) :
    ∀ p ∈ ps, p.written = p.text := by
  induction ps with
  | nil => exact fun p hp => by cases hp
  | cons p ps ih =>
      have hp := written_length_le p
      have hps := writtenOf_length_le ps
      rw [writtenOf_cons, c99_cons] at h
      have hlen := congrArg List.length h
      rw [List.length_append, List.length_append] at hlen
      obtain ⟨hfirst, hrest⟩ := List.append_inj h (by omega)
      exact List.forall_mem_cons.mpr ⟨hfirst, ih hrest⟩

-- The letter behind an `l` shows in the text.
theorem long_shows {pre post : List Piece} (minus zero : Bool) (width : Nat) (conv : Conv) (v : Int)
    (more : List UB) : writtenOf pre ++ (conv.letter :: more) ≠
      c99 (pre ++ Piece.num minus zero width true conv v :: post) := by
  intro h
  rw [c99, List.flatMap_append, ← c99, ← c99, c99_cons] at h
  have hle := writtenOf_length_le pre
  rcases Nat.lt_or_ge (writtenOf pre).length (c99 pre).length with hlt | hge
  · -- it is one letter more than the pieces before have
    have hpre : writtenOf pre ++ [conv.letter] <+: c99 pre := by
      have hshort : writtenOf pre ++ [conv.letter] <+: writtenOf pre ++ (conv.letter :: more) :=
        ⟨more, by simp⟩
      refine List.prefix_of_prefix_length_le hshort ?_ ?_
      · exact ⟨_, h.symm⟩
      · simp only [List.length_append, List.length_singleton]
        omega
    have hcount := hpre.sublist.count_le conv.letter
    have hmax := c99_count_le conv pre
    rw [List.count_append, List.count_singleton_self] at hcount
    omega
  · -- it is the first one of the number
    obtain ⟨-, hrest⟩ := List.append_inj h (by omega)
    have hmem : conv.letter ∉ (Piece.num minus zero width true conv v).text := by
      obtain ⟨-, -, -, hspace, -, hzero⟩ := letter_not_mem_digits conv (k := 0) (by decide)
      rw [← List.count_eq_zero, text_num_count hspace hzero, List.count_eq_zero]
      exact letter_not_mem_self conv v
    have hne : (Piece.num minus zero width true conv v).text ≠ [] := by
      intro hnil
      have hlen := text_num_length minus zero true width conv v
      have hpos : 0 < (numText conv v).length := by
        rw [numText, List.length_append, Conv.digits.eq_def]
        split
        · simp
        · rename_i hv
          have hdigits : ∀ base, (Nat.digits base v.natAbs).length ≠ 0 := fun base hlen => by
            rw [List.length_eq_zero_iff, Nat.digits_eq_nil_iff_eq_zero] at hlen
            omega
          cases conv <;> simp only [List.length_reverse, List.length_map] <;>
            have := hdigits 10 <;> have := hdigits 16 <;> omega
      rw [hnil, List.length_nil] at hlen
      omega
    obtain ⟨c, cs, hc⟩ := List.exists_cons_of_ne_nil hne
    rw [hc, List.cons_append] at hrest
    rw [hc] at hmem
    exact hmem ((List.cons.inj hrest).1 ▸ List.mem_cons_self)

theorem first_long (ps : List Piece) : (∀ p ∈ ps, ¬p.IsLong) ∨
    ∃ pre p post, ps = pre ++ p :: post ∧ (∀ q ∈ pre, ¬q.IsLong) ∧ p.IsLong := by
  induction ps with
  | nil => exact .inl fun p hp => by cases hp
  | cons p ps ih =>
      by_cases hp : p.IsLong
      · exact .inr ⟨[], p, ps, rfl, fun q hq => (by cases hq), hp⟩
      · rcases ih with hps | ⟨pre, q, post, rfl, hpre, hq⟩
        · exact .inl (List.forall_mem_cons.mpr ⟨hp, hps⟩)
        · exact .inr ⟨p :: pre, q, post, rfl, List.forall_mem_cons.mpr ⟨hp, hpre⟩, hq⟩

theorem length_le_formatOf (ps : List Piece) : ps.length ≤ (formatOf ps).length := by
  induction ps with
  | nil => exact Nat.le_refl 0
  | cons p ps ih =>
      obtain ⟨c, cs, hc⟩ := format_cons p
      rw [formatOf_cons, hc, List.length_cons, List.length_append, List.length_cons]
      omega

theorem kept_not_long {p : Piece} (h : p.Kept) : ¬p.IsLong := by
  cases p with
  | num minus zero width long conv v =>
      rw [Piece.IsLong, h.1]
      decide
  | _ => exact id

-- The first piece with an `l` ends what is written as it should be.
theorem formatLoop_breaks {pre post : List Piece} (hvalid : ∀ p ∈ pre, p.Valid)
    (hpre : ∀ p ∈ pre, ¬p.IsLong) (hlen : (c99 pre).length < 2147483648) (minus zero : Bool)
    (width : Nat) (conv : Conv) (v : Int) {room : Nat} (hroom : (writtenOf pre).length < room)
    {o : Out} (hrun : formatLoop
      ((formatOf (pre ++ .num minus zero width true conv v :: post)).length + 1)
      (formatOf (pre ++ .num minus zero width true conv v :: post))
      (argsOf (pre ++ .num minus zero width true conv v :: post)) room = some o) :
    ∃ more, o.bytes = writtenOf pre ++ conv.letter :: more := by
  have hformat : formatOf (pre ++ .num minus zero width true conv v :: post) =
      formatOf pre ++ ((Piece.num minus zero width true conv v).format ++ formatOf post) := by
    rw [formatOf, List.flatMap_append, ← formatOf, ← formatOf, formatOf_cons]
  have hargs : argsOf (pre ++ .num minus zero width true conv v :: post) =
      argsOf pre ++ argsOf (.num minus zero width true conv v :: post) := by
    rw [argsOf, List.flatMap_append, ← argsOf, ← argsOf]
  have htwo : 2 ≤ (Piece.num minus zero width true conv v).format.length := by
    simp [Piece.format, spec]
    omega
  have hfuel := length_le_formatOf pre
  obtain ⟨fuel, hf⟩ : ∃ fuel, (formatOf (pre ++ .num minus zero width true conv v ::
      post)).length + 1 = fuel + 2 + pre.length := by
    rw [hformat, List.length_append, List.length_append]
    exact ⟨_, (Nat.sub_add_cancel (by omega)).symm.trans (Nat.add_assoc _ 2 _).symm⟩
  have hwide := formatLoop_wide hvalid hpre hlen (fuel + 2)
    ((Piece.num minus zero width true conv v).format ++ formatOf post)
    (argsOf (.num minus zero width true conv v :: post)) hroom
  rw [formatLoop_long fuel minus zero width conv v (formatOf post) _
    (Nat.sub_ne_zero_of_lt hroom)] at hwide
  rw [hf, hformat, hargs, hwide, Option.map_map, Option.map_eq_some_iff] at hrun
  obtain ⟨o', -, rfl⟩ := hrun
  exact ⟨o'.bytes, rfl⟩

-- For every format of the language and matching arguments, `tkl_vsnprintf` writes what the
-- standard asks for at every size exactly when no piece needs a modifier it does not know.
theorem vsnprintf_agrees_iff {ps : List Piece} (hvalid : ∀ p ∈ ps, p.Valid)
    (hlen : (c99 ps).length < 2147483648) : Agrees ps ↔ ∀ p ∈ ps, p.Kept := by
  constructor
  · intro hagrees
    -- with room for one more byte than the standard's text
    obtain ⟨o, hrun, hbytes, -⟩ := hagrees ((c99 ps).length + 2)
    rw [tklVsnprintf, if_neg (by omega), Option.map_eq_some_iff] at hrun
    obtain ⟨o, hrun, rfl⟩ := hrun
    rw [if_neg (by omega), List.take_of_length_le (by omega)] at hbytes
    have htext : o.bytes = c99 ps := List.append_cancel_right hbytes
    rcases first_long ps with hlong | ⟨pre, p, post, rfl, hpre, hp⟩
    · have hfuel := length_le_formatOf ps
      obtain ⟨fuel, hf⟩ : ∃ fuel, (formatOf ps).length + 1 = fuel + 1 + ps.length :=
        ⟨(formatOf ps).length - ps.length, by omega⟩
      have hwide := formatLoop_wide hvalid hlong hlen (fuel + 1) [] []
        (Nat.lt_succ_of_le (writtenOf_length_le ps))
      rw [List.append_nil, List.append_nil] at hwide
      have hout := hrun.symm.trans ((congrArg (formatLoop · _ _ _) hf).trans hwide)
      rw [formatLoop, Option.map_some, Option.some.injEq] at hout
      rw [hout, Out.push, List.append_nil] at htext
      exact fun p hp => (written_eq_iff (hlong p hp)).mp (written_eq_of_all htext p hp)
    · cases p with
      | num minus zero width long conv v =>
          obtain rfl : long = true := hp
          have hparts : (c99 (pre ++ .num minus zero width true conv v :: post)).length =
              (c99 pre).length + (c99 (.num minus zero width true conv v :: post)).length := by
            rw [c99, List.flatMap_append, List.length_append, ← c99, ← c99]
          have hle := writtenOf_length_le pre
          have hvalid' : ∀ q ∈ pre, q.Valid := fun q hq => hvalid q (List.mem_append_left _ hq)
          obtain ⟨more, hmore⟩ := formatLoop_breaks hvalid' hpre (by omega) minus zero width conv v
            (by omega) hrun
          rw [hmore] at htext
          exact absurd htext (long_shows minus zero width conv v more)
      | _ => exact absurd hp id
  · intro hkept size
    have hlong : ∀ p ∈ ps, ¬p.IsLong := fun p hp => kept_not_long (hkept p hp)
    have hwritten : ∀ p ∈ ps, p.written = p.text := fun p hp =>
      (written_eq_iff (hlong p hp)).mpr (hkept p hp)
    by_cases hsize : size = 0
    · exact ⟨⟨[], []⟩, if_pos hsize, (if_pos hsize).symm, List.nil_prefix⟩
    · obtain ⟨o, hrun, hbytes, htaken⟩ := formatLoop_kept hvalid hlong hlen hwritten
        (Nat.lt_succ_of_le (length_le_formatOf ps)) (size - 1)
      refine ⟨{ o with bytes := o.bytes ++ [0] }, ?_, ?_, htaken⟩
      · rw [tklVsnprintf, if_neg hsize, hrun, Option.map_some]
      · rw [if_neg hsize, hbytes]

-- `%-6s|%d`
theorem vsnprintf_agrees_iff_plain :
    Agrees [.str true 6 [0x52, 0x55, 0x4E], .lit 0x7C, .num false false 0 false .d (-7)] ↔
      ∀ p ∈ [Piece.str true 6 [0x52, 0x55, 0x4E], .lit 0x7C, .num false false 0 false .d (-7)],
        p.Kept :=
  vsnprintf_agrees_iff (by simp [Piece.Valid]) (by decide)

-- `0x%08lx %-9s` of the list of tasks: the address stays for `%s`, which it is no argument of.
theorem vsnprintf_long :
    ¬Agrees [.lit 0x30, .lit 0x78, .num false true 8 true .x 4096, .lit 0x20,
      .str true 9 [0x36, 0x34, 0x30]] := by
  intro h
  obtain ⟨o, hrun, -⟩ := h 256
  have hnone : tklVsnprintf 256 (formatOf [.lit 0x30, .lit 0x78, .num false true 8 true .x 4096,
      .lit 0x20, .str true 9 [0x36, 0x34, 0x30]]) [.long 4096, .str (some [0x36, 0x34, 0x30])] =
      none := by
    simp [tklVsnprintf, formatOf, Piece.format, spec, decimal, decimalDigit, formatLoop,
      widthDigits, convert, Conv.letter, vaStr]
  exact absurd (hnone.symm.trans hrun) (by simp)

end BTron.Printf
