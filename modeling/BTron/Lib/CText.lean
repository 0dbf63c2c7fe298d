import BTron.Lib.CArray
import Mathlib.Data.List.GetD

namespace BTron.Lib.CArray

-- The array holds the string of the bytes `l`.
structure Holds (size : Int) (a : Bytes) (l : List UInt8) : Prop where
  string : 0 ∉ l
  inside : (l.length : Int) < size
  cell : ∀ k : Nat, k ≤ l.length → a k = l.getD k 0

-- It begins with these bytes, whatever follows them.
def Begins (a : Bytes) (l : List UInt8) : Prop := ∀ k : Nat, k < l.length → a k = l.getD k 0

-- The string in an array
def str (size : Int) (a : Bytes) : Option (List UInt8) :=
  (strlen size a).map fun n => (List.range n.toNat).map fun (k : Nat) => a k

variable {size sizeB : Int} {a b : Bytes} {l m : List UInt8}

theorem Holds.isStr (h : Holds size a l) : IsStr size a l.length := by
  refine ⟨Int.natCast_nonneg _, h.inside, ?_, fun k h0 hk => ?_⟩
  · rw [h.cell _ (Nat.le_refl _)]
    exact List.getD_eq_default _ _ (Nat.le_refl _)
  · obtain ⟨n, rfl⟩ := Int.eq_ofNat_of_zero_le h0
    have hn : n < l.length := by omega
    rw [h.cell n (Nat.le_of_lt hn), List.getD_eq_getElem _ _ hn]
    exact fun heq => h.string (heq ▸ List.getElem_mem hn)

theorem Holds.strlen (h : Holds size a l) : strlen size a = some (l.length : Int) :=
  strlen_eq_some.mpr h.isStr

theorem holds_ofList (h : 0 ∉ l) : Holds (l.length + 1) (ofList l) l := by
  refine ⟨h, by omega, fun k _ => ?_⟩
  rw [ofList, if_pos (by omega), Int.toNat_natCast]

theorem Holds.unique (h : Holds size a l) (h' : Holds size a m) : l = m := by
  have hlen : l.length = m.length := by
    have := h.isStr.unique h'.isStr
    omega
  apply List.ext_getElem hlen
  intro i hi hi'
  have heq := (h.cell i (Nat.le_of_lt hi)).symm.trans (h'.cell i (Nat.le_of_lt hi'))
  rwa [List.getD_eq_getElem _ _ hi, List.getD_eq_getElem _ _ hi'] at heq

theorem IsStr.holds {n : Int} (h : IsStr size a n) :
    Holds size a ((List.range n.toNat).map fun (k : Nat) => a k) := by
  have hpos := h.nonneg
  have hlen : ((List.range n.toNat).map fun (k : Nat) => a k).length = n.toNat := by simp
  refine ⟨fun hmem => ?_, ?_, fun k hk => ?_⟩
  · obtain ⟨k, hk, hzero⟩ := List.mem_map.mp hmem
    rw [List.mem_range] at hk
    exact h.filled k (Int.natCast_nonneg k) (by omega) hzero
  · rw [hlen, Int.toNat_of_nonneg hpos]
    exact h.inside
  · rw [hlen] at hk
    by_cases hlt : k < n.toNat
    · rw [List.getD_eq_getElem _ _ (by omega)]
      simp
    · have heq : (k : Int) = n := by omega
      rw [List.getD_eq_default _ _ (by omega), heq, h.ends]

theorem Holds.str (h : Holds size a l) : str size a = some l := by
  rw [CArray.str, h.strlen, Option.map_some]
  exact congrArg some (h.isStr.holds.unique h)

-- A copy of an array that agrees up to the terminator.
theorem Holds.congr (h : Holds size a l) (heq : ∀ k : Nat, k ≤ l.length → b k = a k) :
    Holds size b l := ⟨h.string, h.inside, fun k hk => (heq k hk).trans (h.cell k hk)⟩

theorem Holds.take (h : Holds size a l) {c : Nat} (hc : c ≤ l.length) :
    ∃ b, set size a c 0 = some b ∧ Holds size b (l.take c) ∧ ∀ k : Int, k ≠ c → b k = a k := by
  have hin := h.inside
  rw [set_eq (by omega)]
  refine ⟨_, rfl, ⟨fun hmem => h.string (List.mem_of_mem_take hmem), ?_, fun k hk => ?_⟩,
    fun k hk => if_neg hk⟩
  · rw [List.length_take]
    omega
  · rw [List.length_take, Nat.min_eq_left hc] at hk
    by_cases hlt : k = c
    · rw [if_pos (by omega), List.getD_eq_default _ _ (by rw [List.length_take]; omega)]
    · rw [if_neg (by omega), h.cell k (by omega), List.getD_eq_getElem _ _ (by omega),
        List.getD_eq_getElem _ _ (by rw [List.length_take]; omega), List.getElem_take]

-- The bytes from `p` to `c` are taken out.
theorem Holds.erase (h : Holds size a l) {p c : Nat} (hp : p ≤ c) (hc : c ≤ l.length) :
    ∃ b, memmove size a p c ((l.length : Int) - c + 1) = some b ∧
      Holds size b (l.take p ++ l.drop c) ∧
      ∀ k : Int, (l.length : Int) - (c - p) < k → b k = a k := by
  have hin := h.inside
  rw [memmove_eq (by omega) (by omega) (by omega)]
  refine ⟨_, rfl, ⟨?_, ?_, fun k hk => ?_⟩, fun k hk => if_neg (by omega)⟩
  · exact fun hmem => (List.mem_append.mp hmem).elim (fun hm => h.string (List.mem_of_mem_take hm))
      fun hm => h.string (List.mem_of_mem_drop hm)
  · rw [List.length_append, List.length_take, List.length_drop]
    omega
  · rw [List.length_append, List.length_take, List.length_drop] at hk
    by_cases hlt : k < p
    · rw [if_neg (by omega), h.cell k (by omega), List.getD_append _ _ _ _ (by
        rw [List.length_take]; omega), List.getD_eq_getElem _ _ (by omega),
        List.getD_eq_getElem _ _ (by rw [List.length_take]; omega), List.getElem_take]
    · have hshift : (k : Int) - p + c = ((k - p + c : Nat) : Int) := by omega
      rw [if_pos (by omega), hshift, h.cell _ (by omega), List.getD_append_right _ _ _ _ (by
        rw [List.length_take]; omega), List.length_take, Nat.min_eq_left (by omega)]
      simp only [List.getD_eq_getElem?_getD, List.getElem?_drop]
      congr 2
      omega

-- A text goes in at `c`: what stands behind it makes room, and then it is copied there.
theorem Holds.insert (h : Holds size a l) {t : List UInt8} (ht : 0 ∉ t) {c : Nat}
    (hc : c ≤ l.length) (hroom : (l.length : Int) + t.length < size) :
    ∃ a' b, memmove size a ((c : Int) + t.length) c ((l.length : Int) - c + 1) = some a' ∧
      memcpy size a' c t = some b ∧ Holds size b (l.take c ++ t ++ l.drop c) ∧
      ∀ k : Int, (l.length : Int) + t.length < k → b k = a k := by
  have hin := h.inside
  rw [memmove_eq (by omega) (by omega) (by omega)]
  refine ⟨_, _, rfl, if_pos (by omega), ⟨?_, ?_, fun k hk => ?_⟩, fun k hk => ?_⟩
  · intro hmem
    obtain hmem | hmem := List.mem_append.mp hmem
    · exact (List.mem_append.mp hmem).elim (fun hm => h.string (List.mem_of_mem_take hm)) ht
    · exact h.string (List.mem_of_mem_drop hmem)
  · simp only [List.length_append, List.length_take, List.length_drop]
    omega
  · simp only [List.length_append, List.length_take, List.length_drop] at hk
    have hlen : (l.take c ++ t).length = c + t.length := by
      rw [List.length_append, List.length_take]
      omega
    by_cases hfirst : k < c
    · rw [if_neg (by omega)]
      beta_reduce
      rw [if_neg (by omega), h.cell k (by omega), List.append_assoc,
        List.getD_append _ _ _ _ (by rw [List.length_take]; omega),
        List.getD_eq_getElem _ _ (by omega),
        List.getD_eq_getElem _ _ (by rw [List.length_take]; omega), List.getElem_take]
    by_cases hsecond : k < c + t.length
    · have hshift : ((k : Int) - c).toNat = k - c := by omega
      rw [if_pos (by omega), hshift, List.getD_append _ _ _ _ (by omega),
        List.getD_append_right _ _ _ _ (by rw [List.length_take]; omega), List.length_take,
        Nat.min_eq_left hc]
    · have hshift : (k : Int) - (c + t.length) + c = ((k - t.length : Nat) : Int) := by omega
      rw [if_neg (by omega)]
      beta_reduce
      rw [if_pos (by omega), hshift, h.cell _ (by omega),
        List.getD_append_right _ _ _ _ (by omega), hlen]
      simp only [List.getD_eq_getElem?_getD, List.getElem?_drop]
      congr 2
      omega
  · rw [if_neg (by omega)]
    beta_reduce
    rw [if_neg (by omega)]

-- One byte is set as a text of one byte is copied.
theorem memcpy_singleton (i : Int) (c : UInt8) : memcpy size a i [c] = set size a i c := by
  rw [memcpy, set]
  by_cases h : 0 ≤ i ∧ i < size
  · rw [if_pos ⟨h.1, by rw [List.length_singleton]; omega⟩, if_pos h]
    congr 1
    funext k
    by_cases hk : k = i
    · subst hk
      rw [if_pos ⟨Int.le_refl k, by rw [List.length_singleton]; omega⟩, if_pos rfl, Int.sub_self]
      rfl
    · rw [if_neg (by rw [List.length_singleton]; omega), if_neg hk]
  · rw [if_neg (by rw [List.length_singleton]; omega), if_neg h]

theorem Holds.strnlen (h : Holds size a l) (src n : Nat) (hsrc : src ≤ l.length) :
    strnlen size a n src = some ((min (src + n) l.length : Nat) : Int) := by
  have hstr := h.isStr
  obtain ⟨stop, hstop, hle⟩ := strnlen_of_nul (m := n) (Int.natCast_nonneg src)
    (show (src : Int) ≤ l.length by omega) hstr.inside hstr.ends
  obtain ⟨hlow, hhigh, -, hend⟩ := strnlen_spec hstop
  rw [hstop]
  congr 1
  by_cases hlt : stop < src + n
  · have hlen : ¬stop < l.length := fun h' => hstr.filled stop (by omega) h' (hend hlt).1
    omega
  · omega

-- A copy of `n` bytes from `src` on to `dst`, with a NUL behind them in the array.
theorem Holds.copy (ha : Holds size a l) (hb : Holds sizeB b m) (dst src n : Nat)
    (hdst : dst ≤ l.length) (hsrc : src ≤ m.length) (hroom : ((dst + n : Nat) : Int) < size)
    (hend : a (dst + n : Nat) = 0) :
    ∃ c, strncpy size a dst sizeB b src n = some c ∧
      Holds size c (l.take dst ++ (m.drop src).take n) ∧
      ∀ k : Int, (dst + n : Nat) ≤ k → c k = a k := by
  have hlen : (l.take dst ++ (m.drop src).take n).length = dst + min n (m.length - src) := by
    rw [List.length_append, List.length_take, List.length_take, List.length_drop]
    omega
  have htake : (l.take dst).length = dst := by
    rw [List.length_take]
    omega
  rw [strncpy, if_pos (by omega), Int.toNat_natCast, hb.strnlen src n hsrc, Option.map_some]
  refine ⟨_, rfl, ⟨?_, ?_, fun k hk => ?_⟩, fun k hk => if_neg (by omega)⟩
  · intro hmem
    obtain hmem | hmem := List.mem_append.mp hmem
    · exact ha.string (List.mem_of_mem_take hmem)
    · exact hb.string (List.mem_of_mem_drop (List.mem_of_mem_take hmem))
  · rw [hlen]
    omega
  · rw [hlen] at hk
    by_cases hfirst : k < dst
    · rw [if_neg (by omega), ha.cell k (by omega), List.getD_append _ _ _ _ (by omega),
        List.getD_eq_getElem _ _ (by omega), List.getD_eq_getElem _ _ (by omega),
        List.getElem_take]
    rw [List.getD_append_right _ _ _ _ (by omega), htake]
    by_cases hcopied : k - dst < min n (m.length - src)
    · have hshift : (k : Int) - dst + src = ((k - dst + src : Nat) : Int) := by omega
      rw [if_pos (by omega), if_pos (by omega), hshift, hb.cell _ (by omega),
        List.getD_eq_getElem _ _ (by omega),
        List.getD_eq_getElem _ _ (by rw [List.length_take, List.length_drop]; omega)]
      simp only [List.getElem_take, List.getElem_drop]
      congr 1
      omega
    · rw [List.getD_eq_default _ _ (by rw [List.length_take, List.length_drop]; omega)]
      by_cases hpad : k < dst + n
      · rw [if_pos (by omega), if_neg (by omega)]
      · have heq : k = dst + n := by omega
        rw [if_neg (by omega), heq, hend]

theorem Begins.holds (h : Begins a l) (h0 : 0 ∉ l) (hin : (l.length : Int) < size)
    (hend : a l.length = 0) : Holds size a l := by
  refine ⟨h0, hin, fun k hk => ?_⟩
  by_cases hlt : k < l.length
  · exact h k hlt
  · have heq : k = l.length := by omega
    rw [heq, hend, List.getD_eq_default _ _ (Nat.le_refl _)]

theorem Holds.begins (h : Holds size a l) : Begins a l := fun k hk => h.cell k (Nat.le_of_lt hk)

theorem Begins.push (h : Begins a l) (size : Int) (c : UInt8) (hin : (l.length : Int) < size) :
    ∃ b, set size a l.length c = some b ∧ Begins b (l ++ [c]) ∧
      ∀ k : Int, k ≠ l.length → b k = a k := by
  rw [set_eq (by omega)]
  refine ⟨_, rfl, fun k hk => ?_, fun k hk => if_neg hk⟩
  rw [List.length_append, List.length_singleton] at hk
  beta_reduce
  by_cases hlt : k < l.length
  · rw [if_neg (by omega), h k hlt, List.getD_append _ _ _ _ hlt]
  · have heq : k = l.length := by omega
    rw [heq, if_pos rfl, List.getD_append_right _ _ _ _ (Nat.le_refl _), Nat.sub_self]
    rfl

theorem Begins.terminate (h : Begins a l) (size : Int) (h0 : 0 ∉ l)
    (hin : (l.length : Int) < size) :
    ∃ b, set size a l.length 0 = some b ∧ Holds size b l ∧ ∀ k : Int, k ≠ l.length → b k = a k := by
  rw [set_eq (by omega)]
  refine ⟨_, rfl, Begins.holds (fun k hk => ?_) h0 hin (if_pos rfl), fun k hk => if_neg hk⟩
  rw [if_neg (by omega), h k hk]

-- A part of a string is copied behind them.
theorem Begins.copy (ha : Begins a l) (size : Int) (hb : Holds sizeB b m) (src n : Nat)
    (hsrc : src + n ≤ m.length) (hroom : ((l.length + n : Nat) : Int) ≤ size) :
    ∃ c, strncpy size a l.length sizeB b src n = some c ∧
      Begins c (l ++ (m.drop src).take n) ∧ ∀ k : Int, (l.length + n : Nat) ≤ k → c k = a k := by
  have hstop := hb.strnlen src n (Nat.le_trans (Nat.le_add_right src n) hsrc)
  rw [Nat.min_eq_left hsrc] at hstop
  rw [strncpy, if_pos (by omega), Int.toNat_natCast, hstop, Option.map_some]
  refine ⟨_, rfl, fun k hk => ?_, fun k hk => if_neg (by omega)⟩
  rw [List.length_append, List.length_take, List.length_drop] at hk
  beta_reduce
  by_cases hfirst : k < l.length
  · rw [if_neg (by omega), ha k hfirst, List.getD_append _ _ _ _ hfirst]
  · have hshift : (k : Int) - l.length + src = ((k - l.length + src : Nat) : Int) := by omega
    have hlt : k - l.length < ((m.drop src).take n).length := by
      rw [List.length_take, List.length_drop]
      omega
    rw [if_pos (by omega), if_pos (by omega), hshift, hb.cell _ (by omega),
      List.getD_append_right _ _ _ _ (by omega), List.getD_eq_getElem _ _ hlt,
      List.getD_eq_getElem _ _ (by omega)]
    simp only [List.getElem_take, List.getElem_drop]
    congr 1
    omega

-- `n` bytes of a string are appended at most.
theorem Holds.append (ha : Holds size a l) (hb : Holds sizeB b m) {n : Nat}
    (hroom : (l.length : Int) + min n m.length < size) :
    ∃ c, strncat size a sizeB b n = some c ∧ Holds size c (l ++ m.take n) ∧
      ∀ k : Int, (l.length : Int) + min n m.length < k → c k = a k := by
  have hstop : CArray.strnlen sizeB b n 0 = some ((min n m.length : Nat) : Int) := by
    simpa using hb.strnlen 0 n (Nat.zero_le _)
  rw [strncat, ha.strlen, Option.bind_eq_bind, Option.bind_some, Int.toNat_natCast, hstop,
    Option.bind_some, if_pos (by omega)]
  refine ⟨_, rfl, ⟨?_, ?_, fun k hk => ?_⟩, fun k hk => ?_⟩
  · intro hmem
    exact (List.mem_append.mp hmem).elim ha.string fun hm => hb.string (List.mem_of_mem_take hm)
  · rw [List.length_append, List.length_take]
    omega
  · rw [List.length_append, List.length_take] at hk
    by_cases hfirst : k < l.length
    · rw [if_neg (by omega), if_neg (by omega), ha.cell k (by omega),
        List.getD_append _ _ _ _ hfirst]
    rw [List.getD_append_right _ _ _ _ (by omega)]
    by_cases hcopied : k - l.length < min n m.length
    · have hshift : (k : Int) - l.length = ((k - l.length : Nat) : Int) := by omega
      rw [if_pos (by omega), hshift, hb.cell _ (by omega), List.getD_eq_getElem _ _ (by omega),
        List.getD_eq_getElem _ _ (by rw [List.length_take]; omega), List.getElem_take]
    · rw [if_neg (by omega), if_pos (by omega),
        List.getD_eq_default _ _ (by rw [List.length_take]; omega)]
  · rw [if_neg (by omega), if_neg (by omega)]

-- A string is copied to the front of an array, whatever that holds, and filled up to `n` bytes.
theorem Holds.strncpy_fill (hb : Holds sizeB b m) (a : Bytes) {n : Nat} (hroom : (n : Int) ≤ size) :
    ∃ c, strncpy size a 0 sizeB b 0 n = some c ∧
      (∀ k : Nat, k < n → c k = (m.take n).getD k 0) ∧ ∀ k : Int, n ≤ k → c k = a k := by
  have hstop := hb.strnlen 0 n (Nat.zero_le _)
  rw [Nat.zero_add] at hstop
  rw [strncpy, if_pos (by omega), Int.toNat_natCast, ← Int.natCast_zero, hstop, Option.map_some]
  refine ⟨_, rfl, fun k hk => ?_, fun k hk => if_neg (by omega)⟩
  rw [if_pos (by omega)]
  by_cases hcopied : k < min n m.length
  · have hshift : (k : Int) - (0 : Nat) + (0 : Nat) = (k : Int) := by omega
    rw [if_pos (by omega), hshift, hb.cell k (by omega), List.getD_eq_getElem _ _ (by omega),
      List.getD_eq_getElem _ _ (by rw [List.length_take]; omega), List.getElem_take]
  · rw [if_neg (by omega), List.getD_eq_default _ _ (by rw [List.length_take]; omega)]

-- With a NUL behind the `n` bytes, the array holds them as a string.
theorem Holds.fill (hb : Holds sizeB b m) {n : Nat} (hroom : (n : Int) < size) (hend : a n = 0) :
    ∃ c, strncpy size a 0 sizeB b 0 n = some c ∧ Holds size c (m.take n) ∧
      ∀ k : Int, n ≤ k → c k = a k := by
  obtain ⟨c, hc, hcell, hrest⟩ := hb.strncpy_fill a (Int.le_of_lt hroom)
  refine ⟨c, hc, ⟨fun hmem => hb.string (List.mem_of_mem_take hmem), ?_, fun k hk => ?_⟩, hrest⟩
  · rw [List.length_take]
    omega
  · rw [List.length_take] at hk
    by_cases hlt : k < n
    · exact hcell k hlt
    · have heq : k = n := by omega
      rw [heq, hrest n (Int.le_refl _), hend,
        List.getD_eq_default _ _ (by rw [List.length_take]; omega)]

theorem Holds.fill_set (hb : Holds sizeB b m) (size : Int) (a : Bytes) {n : Nat}
    (hroom : (n : Int) < size) :
    ∃ c c', strncpy size a 0 sizeB b 0 n = some c ∧ set size c n 0 = some c' ∧
      Holds size c' (m.take n) := by
  obtain ⟨c, hc, hcell, -⟩ := hb.strncpy_fill a (Int.le_of_lt hroom)
  refine ⟨c, _, hc, set_eq (by omega), fun hmem => hb.string (List.mem_of_mem_take hmem), ?_,
    fun k hk => ?_⟩
  · rw [List.length_take]
    omega
  · rw [List.length_take] at hk
    by_cases hlt : k < n
    · rw [if_neg (by omega)]
      exact hcell k hlt
    · rw [if_pos (by omega), List.getD_eq_default _ _ (by rw [List.length_take]; omega)]

end BTron.Lib.CArray
