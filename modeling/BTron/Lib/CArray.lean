import Mathlib.Data.List.Basic

namespace BTron.Lib.CArray

-- A char array of `size` bytes. An access outside it fails.
abbrev Bytes := Int → UInt8

-- The index of the first NUL among `n` bytes from `i` on, or the index behind them.
def strnlen (size : Int) (a : Bytes) : Nat → Int → Option Int
  | 0, i => some i
  | n + 1, i =>
    if i < 0 ∨ size ≤ i then none
    else if a i = 0 then some i
    else strnlen size a n (i + 1)

-- A string that no NUL ends runs out of the array.
def strlen (size : Int) (a : Bytes) : Option Int :=
  (strnlen size a (size.toNat + 1) 0)

def memmove (size : Int) (a : Bytes) (dst src n : Int) : Option Bytes :=
  if 0 ≤ n ∧ 0 ≤ dst ∧ dst + n ≤ size ∧ 0 ≤ src ∧ src + n ≤ size then
    some fun k => if dst ≤ k ∧ k < dst + n then a (k - dst + src) else a k
  else none

-- `strncpy(&a[dst], &b[src], n)`, which fills up with NULs.
def strncpy (size : Int) (a : Bytes) (dst : Int) (sizeB : Int) (b : Bytes) (src n : Int) :
    Option Bytes :=
  if 0 ≤ n ∧ 0 ≤ dst ∧ dst + n ≤ size then
    (strnlen sizeB b n.toNat src).map fun stop k =>
      if dst ≤ k ∧ k < dst + n then (if k - dst + src < stop then b (k - dst + src) else 0)
      else a k
  else none

-- `strncat(a, b, n)`
def strncat (size : Int) (a : Bytes) (sizeB : Int) (b : Bytes) (n : Int) : Option Bytes := do
  let len ← strlen size a
  let stop ← strnlen sizeB b n.toNat 0
  if len + stop < size then
    some fun k =>
      if len ≤ k ∧ k < len + stop then b (k - len) else if k = len + stop then 0 else a k
  else none

-- `memcpy(&a[dst], bs, n)` of `n` bytes that lie elsewhere.
def memcpy (size : Int) (a : Bytes) (dst : Int) (bs : List UInt8) : Option Bytes :=
  if 0 ≤ dst ∧ dst + bs.length ≤ size then
    some fun k => if dst ≤ k ∧ k < dst + bs.length then bs.getD (k - dst).toNat 0 else a k
  else none

-- The array that holds a text and is zeroed behind it.
def ofList (bs : List UInt8) : Bytes := fun k => if 0 ≤ k then bs.getD k.toNat 0 else 0

def set (size : Int) (a : Bytes) (i : Int) (c : UInt8) : Option Bytes :=
  if 0 ≤ i ∧ i < size then some fun k => if k = i then c else a k else none

-- The first `n` bytes are not NUL.
def Filled (a : Bytes) (n : Int) : Prop := ∀ k, 0 ≤ k → k < n → a k ≠ 0

-- The array holds a string of `n` bytes.
structure IsStr (size : Int) (a : Bytes) (n : Int) : Prop where
  nonneg : 0 ≤ n
  inside : n < size
  ends : a n = 0
  filled : Filled a n

variable {size sizeB : Int} {a b : Bytes} {i n : Int}

theorem IsStr.le_of_filled {m : Int} (h : IsStr size a n) (hm : Filled a m) : m ≤ n := by
  by_contra hlt
  exact hm n h.nonneg (by omega) h.ends

theorem IsStr.unique {m : Int} (h : IsStr size a n) (h' : IsStr size a m) : n = m :=
  Int.le_antisymm (h'.le_of_filled h.filled) (h.le_of_filled h'.filled)

theorem Filled.mono {m : Int} (h : Filled a n) (hm : m ≤ n) : Filled a m :=
  fun k h0 hk => h k h0 (by omega)

-- The scan stops at a NUL or behind the last byte it may look at.
theorem strnlen_spec {m : Nat} {stop : Int} (h : strnlen size a m i = some stop) :
    i ≤ stop ∧ stop ≤ i + m ∧ (∀ k, i ≤ k → k < stop → a k ≠ 0 ∧ 0 ≤ k ∧ k < size) ∧
      (stop < i + m → a stop = 0 ∧ 0 ≤ stop ∧ stop < size) := by
  induction m generalizing i with
  | zero =>
      obtain rfl := Option.some.inj h
      refine ⟨Int.le_refl _, by omega, fun k hk hk' => ?_, fun hlt => ?_⟩ <;> omega
  | succ m ih =>
      rw [strnlen] at h
      split at h
      · cases h
      · rename_i hin
        split at h
        · rename_i hzero
          obtain rfl := Option.some.inj h
          refine ⟨Int.le_refl _, by omega, fun k hk hk' => ?_, fun _ => ⟨hzero, by omega, by omega⟩⟩
          omega
        · rename_i hne
          obtain ⟨hlow, hhigh, hfilled, hend⟩ := ih h
          refine ⟨by omega, by omega, fun k hk hk' => ?_, fun hlt => hend (by omega)⟩
          by_cases hki : k = i
          · rw [hki]
            exact ⟨hne, by omega, by omega⟩
          · exact hfilled k (by omega) hk'

-- The scan of a string ends.
theorem strnlen_of_nul {m : Nat} {z : Int} (hi : 0 ≤ i) (hz : i ≤ z) (hin : z < size)
    (hzero : a z = 0) : ∃ stop, strnlen size a m i = some stop ∧ stop ≤ z := by
  induction m generalizing i with
  | zero => exact ⟨i, rfl, hz⟩
  | succ m ih =>
      rw [strnlen, if_neg (by omega)]
      split
      · exact ⟨i, rfl, hz⟩
      · rename_i hne
        have hlt : i ≠ z := by
          rintro rfl
          exact hne hzero
        exact ih (by omega) (by omega)

theorem strlen_eq_some : strlen size a = some n ↔ IsStr size a n := by
  have hsome : ∀ {m}, strlen size a = some m → IsStr size a m := by
    intro m h
    obtain ⟨hlow, hhigh, hfilled, hend⟩ := strnlen_spec h
    have hlt : m < 0 + ((size.toNat + 1 : Nat) : Int) := by
      by_contra hge
      have hlast := hfilled (m - 1)
      omega
    obtain ⟨hzero, -, hin⟩ := hend hlt
    exact ⟨hlow, hin, hzero, fun k h0 hk => (hfilled k h0 hk).1⟩
  constructor
  · exact hsome
  · intro h
    obtain ⟨m, hm, -⟩ :=
      strnlen_of_nul (m := size.toNat + 1) (Int.le_refl _) h.nonneg h.inside h.ends
    have hm' : strlen size a = some m := hm
    rw [hm', (hsome hm').unique h]

theorem strlen_of_nul {z : Int} (h0 : 0 ≤ z) (hin : z < size) (hzero : a z = 0) :
    ∃ n, strlen size a = some n ∧ IsStr size a n ∧ n ≤ z := by
  obtain ⟨n, hn, hle⟩ := strnlen_of_nul (m := size.toNat + 1) (Int.le_refl _) h0 hin hzero
  exact ⟨n, hn, strlen_eq_some.mp hn, hle⟩

theorem memmove_eq {dst src : Int} (hn : 0 ≤ n) (hdst : 0 ≤ dst ∧ dst + n ≤ size)
    (hsrc : 0 ≤ src ∧ src + n ≤ size) :
    memmove size a dst src n =
      some fun k => if dst ≤ k ∧ k < dst + n then a (k - dst + src) else a k :=
  if_pos ⟨hn, hdst.1, hdst.2, hsrc.1, hsrc.2⟩

theorem set_eq {c : UInt8} (h : 0 ≤ i ∧ i < size) :
    set size a i c = some fun k => if k = i then c else a k := if_pos h

-- A copy of a string leaves what is outside its range alone.
theorem strncpy_spec {dst src z : Int} (hn : 0 ≤ n) (hdst : 0 ≤ dst ∧ dst + n ≤ size)
    (hsrc : 0 ≤ src ∧ src ≤ z ∧ z < sizeB) (hzero : b z = 0) :
    ∃ c, strncpy size a dst sizeB b src n = some c ∧
      ∀ k, ¬(dst ≤ k ∧ k < dst + n) → c k = a k := by
  obtain ⟨stop, hstop, -⟩ := strnlen_of_nul (m := n.toNat) hsrc.1 hsrc.2.1 hsrc.2.2 hzero
  rw [strncpy, if_pos ⟨hn, hdst⟩, hstop]
  exact ⟨_, rfl, fun k hk => if_neg hk⟩

theorem strncat_spec {m : Int} (ha : IsStr size a n) (hb : IsStr sizeB b m) {l : Int}
    (hroom : n + m < size) :
    ∃ c, strncat size a sizeB b l = some c ∧ ∀ k, k < n ∨ n + m < k → c k = a k := by
  obtain ⟨stop, hstop, hle⟩ :=
    strnlen_of_nul (m := l.toNat) (Int.le_refl 0) hb.nonneg hb.inside hb.ends
  have hlow := (strnlen_spec hstop).1
  rw [strncat, strlen_eq_some.mpr ha]
  simp only [hstop, Option.bind_eq_bind, Option.bind_some]
  rw [if_pos (by omega)]
  refine ⟨_, rfl, fun k hk => ?_⟩
  rw [if_neg (by omega), if_neg (by omega)]

theorem memcpy_spec {dst : Int} {bs : List UInt8} (h : 0 ≤ dst ∧ dst + bs.length ≤ size) :
    ∃ c, memcpy size a dst bs = some c ∧
      (∀ k, dst ≤ k → k < dst + bs.length → c k ∈ bs) ∧
      ∀ k, ¬(dst ≤ k ∧ k < dst + bs.length) → c k = a k := by
  rw [memcpy, if_pos h]
  refine ⟨_, rfl, fun k hlow hhigh => ?_, fun k hk => if_neg hk⟩
  rw [if_pos ⟨hlow, hhigh⟩, List.getD_eq_getElem?_getD, List.getElem?_eq_getElem (by omega)]
  exact List.getElem_mem _

end BTron.Lib.CArray
