import BTron.Libstr.Represents

namespace BTron.Libstr

open Lib Lib.Blocks

variable {t : Target} {h : Heap} {pre post bs : List Block} {b : Block}

-- The size of the block a request of `n` bytes gets.
def rounded (n : Nat) : Nat := (n + 15) / 16 * 16

theorem reuse_represents (hr : Represents t h (pre ++ b :: post)) {size : Nat} (h0 : 0 < size)
    (h16 : 16 ∣ size) (hsize : size ≤ b.size) :
    Represents t (reuse t h b.addr size) (pre ++ carve headerSize 16 size b ++ post) := by
  have hroom := t.room
  have hle := hr.size_le (b := b) (by simp)
  have hinner : t.add size headerSize = size + headerSize := add_eq t (by omega)
  have hneed : t.add (t.add size headerSize) 16 = size + headerSize + 16 := by
    rw [hinner]
    exact add_eq t (by unfold headerSize; omega)
  rw [reuse, hneed, (hr.header b (by simp)).1, carve]
  by_cases hcut : size + headerSize + 16 ≤ b.size
  · have hs := (hr.split h0 h16 hcut).setFree false
    simpa [hcut] using hs
  · have hs := hr.setFree false
    simpa [hcut] using hs

theorem bump_represents (hr : Represents t h bs) {size : Nat} (h0 : 0 < size) (h16 : 16 ∣ size)
    (hsize : size ≤ t.poolSize + 15) {fuel : Nat} (hfuel : bs.length < fuel) :
    if h.offset + headerSize + size ≤ t.poolSize then
      ∃ h', bump t fuel h size = some (some (h.offset + headerSize), h') ∧ h'.bytes = h.bytes ∧
        Represents t h' (bs ++ [⟨h.offset, size, false⟩])
    else bump t fuel h size = some (none, h) := by
  have hroom := t.room
  have htop := hr.top
  have hinner : t.add headerSize size = headerSize + size :=
    add_eq t (by unfold headerSize; omega)
  have halign : t.align (t.add headerSize size) = headerSize + size := by
    rw [hinner, align_eq t (by unfold headerSize; omega)]
    unfold headerSize
    omega
  have hsum : t.add h.offset (headerSize + size) = h.offset + headerSize + size := by
    rw [add_eq t (by unfold headerSize; omega), Nat.add_assoc]
  rw [bump, halign, hsum]
  by_cases hfit : h.offset + headerSize + size ≤ t.poolSize
  · rw [if_pos hfit, if_neg (by omega)]
    rcases bs.eq_nil_or_concat with rfl | ⟨bs, b, rfl⟩
    · have hhead : h.head = none := hr.head
      simp only [hhead]
      exact ⟨_, rfl, rfl, hr.first h0 h16 hfit⟩
    · rw [List.concat_eq_append] at *
      obtain ⟨a, as, has⟩ : ∃ a as, (bs ++ [b]).map Block.addr = a :: as := by
        cases bs <;> simp
      have hhead : h.head = some a := by rw [hr.head, has]; rfl
      have htail : findTail (modify h.mem h.offset fun _ => ⟨size, 0, heapMagic, none, none⟩)
          fuel a = some b.addr := by
        have hl : Linked (fun x => ((modify h.mem h.offset fun _ =>
            (⟨size, 0, heapMagic, none, none⟩ : HeapBlock)) x).next)
            (fun x => ((modify h.mem h.offset fun _ =>
            (⟨size, 0, heapMagic, none, none⟩ : HeapBlock)) x).prev) none (a :: as) none := by
          refine (has ▸ hr.links).congr fun x hx => ?_
          obtain ⟨d, hd, rfl⟩ := List.mem_map.mp (has ▸ hx)
          simp [hr.ne_offset hd]
        have hlen : as.length < fuel := by
          have := congrArg List.length has
          simp only [List.length_map, List.length_cons] at this
          omega
        rw [Represents.findTail_eq fuel hlen hl, ← has]
        simp
      have hcat := hr.concat h0 h16 hfit
      rw [hhead] at hcat
      simp only [hhead, htail]
      exact ⟨_, rfl, rfl, hcat⟩
  · rw [if_neg hfit, if_pos (by omega)]

-- What a call of Imalloc does to the block list.
theorem imalloc_represents (hr : Represents t h bs) {n : Nat} (h0 : 0 < n)
    (hn : n ≤ t.poolSize) :
    ∃ p h' bs', imalloc t h n = some (p.map (· + headerSize), h') ∧ h'.bytes = h.bytes ∧
      (p = none → h' = h) ∧
      Represents t h' bs' ∧ Allocates headerSize 16 t.poolSize (rounded n) bs p bs' := by
  have hroom := t.room
  have halign : t.align n = rounded n := align_eq t (by omega)
  have hpos : 0 < rounded n := by unfold rounded; omega
  have h16 : 16 ∣ rounded n := Dvd.intro_left _ rfl
  have hfind := Represents.findFit_eq (rounded n) (t.poolSize + 1)
    (Nat.le_succ_of_le hr.length_le) hr.links hr.header
  rw [← hr.head] at hfind
  rw [imalloc, imallocFuel, if_neg (by omega)]
  simp only [halign, hfind]
  cases hf : bs.find? fun b => b.free && decide (rounded n ≤ b.size) with
  | some b =>
      obtain ⟨hb, pre, post, rfl, hpre⟩ := List.find?_eq_some_iff_append.mp hf
      rw [Bool.and_eq_true, decide_eq_true_iff] at hb
      refine ⟨some b.addr, _, _, rfl, rfl, by simp, reuse_represents hr hpos h16 hb.2,
        .reuse hb.1 hb.2 fun c hc hfree => ?_⟩
      simpa [hfree] using hpre c hc
  | none =>
      have hnone : ∀ c ∈ bs, c.free = true → c.size < rounded n := fun c hc hfree => by
        simpa [hfree] using List.find?_eq_none.mp hf c hc
      have hbump := bump_represents hr hpos h16 (by unfold rounded; omega)
        (Nat.lt_succ_of_le hr.length_le)
      by_cases hfit : h.offset + headerSize + rounded n ≤ t.poolSize
      · rw [if_pos hfit] at hbump
        obtain ⟨h', hcall, hbytes, hr'⟩ := hbump
        exact ⟨some h.offset, h', _, hcall, hbytes, by simp, hr', .bump hnone hr.tiles hfit⟩
      · rw [if_neg hfit] at hbump
        exact ⟨none, h, _, hbump, rfl, fun _ => rfl, hr,
          .full hnone hr.tiles (Nat.lt_of_not_le hfit)⟩

theorem coalesceForward_represents (hr : Represents t h (pre ++ b :: post)) :
    Represents t { h with mem := coalesceForward t h.mem b.addr }
      (pre ++ (mergeNext headerSize b post).1 :: (mergeNext headerSize b post).2) := by
  have hnext := hr.next_eq
  cases post with
  | nil => simpa [coalesceForward, hnext, mergeNext] using hr
  | cons c post =>
      obtain ⟨-, hmagic, hfree⟩ := hr.header c (by simp)
      simp only [List.map_cons, List.head?_cons] at hnext
      cases hc : c.free with
      | false => simpa [coalesceForward, hnext, mergeNext, hfree, hc] using hr
      | true => simpa [coalesceForward, hnext, mergeNext, hfree, hmagic, hc] using hr.absorb

theorem coalesceBackward_represents (hr : Represents t h (pre ++ b :: post)) :
    let r := coalesceBackward t h.mem b.addr
    let m := mergePrev headerSize pre b
    r.2 = m.2.addr ∧ Represents t { h with mem := r.1 } (m.1 ++ m.2 :: post) := by
  have hprev := hr.prev_eq
  rcases pre.eq_nil_or_concat with rfl | ⟨pre, c, rfl⟩
  · simpa [coalesceBackward, hprev, mergePrev] using hr
  · rw [List.concat_eq_append] at *
    obtain ⟨-, hmagic, hfree⟩ := hr.header c (by simp)
    simp only [List.map_append, List.map_cons, List.map_nil, List.getLast?_concat] at hprev
    cases hc : c.free with
    | false => simpa [coalesceBackward, hprev, mergePrev, hfree, hc] using hr
    | true =>
        have hr' : Represents t h (pre ++ c :: b :: post) := by simpa using hr
        simpa [coalesceBackward, hprev, mergePrev, hfree, hmagic, hc, merge] using hr'.absorb

theorem shrink_represents (hr : Represents t h (pre ++ b :: post)) (hb : b.free = true) :
    Represents t (shrink h b.addr) (if post = [] then pre else pre ++ b :: post) := by
  have hnext := hr.next_eq
  have hprev := hr.prev_eq
  obtain ⟨-, -, hfree⟩ := hr.header b (by simp)
  cases post with
  | cons c post => simpa [shrink, hnext] using hr
  | nil =>
      rcases pre.eq_nil_or_concat with rfl | ⟨pre, c, rfl⟩
      · simpa [shrink, hnext, hprev, hfree, hb] using hr.cut_first
      · rw [List.concat_eq_append] at *
        simpa [shrink, hnext, hprev, hfree, hb] using hr.cut

-- What a call of Ifree on the block `b` does to the block list.
theorem ifree_represents (hr : Represents t h (pre ++ b :: post)) :
    Represents t (ifree t h (some (b.addr + headerSize))) (release headerSize pre b post) := by
  obtain ⟨-, hmagic, -⟩ := hr.header b (by simp)
  have hfwd := coalesceForward_represents (hr.setFree true)
  have hbwd := coalesceBackward_represents hfwd
  have haddr : ∀ (c : Block) (post : List Block),
      (mergeNext headerSize c post).1.addr = c.addr := by
    intro c post
    unfold mergeNext
    split
    · rfl
    · split <;> rfl
  rw [haddr] at hbwd
  obtain ⟨hblk, hbwd⟩ := hbwd
  have hshrink := shrink_represents hbwd (mergePrev_free _ pre (mergeNext_free _ rfl post))
  rw [ifree]
  simp only [Nat.add_sub_cancel, hmagic, ne_eq, not_true_eq_false, if_false]
  simpa [release, ← hblk] using hshrink

end BTron.Libstr
