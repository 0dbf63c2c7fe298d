import BTron.Libstr
import BTron.Lib.Blocks
import BTron.Lib.DList
import Mathlib.Data.Nat.ModEq

namespace BTron.Libstr

open Lib Lib.Blocks

-- The headers of the heap form the block list `bs`.
structure Represents (t : Target) (h : Heap) (bs : List Block) : Prop where
  head : h.head = (bs.map Block.addr).head?
  links : Linked (fun a => (h.mem a).next) (fun a => (h.mem a).prev) none (bs.map Block.addr) none
  header : ∀ b ∈ bs, (h.mem b.addr).size = b.size ∧ (h.mem b.addr).magic = heapMagic ∧
    (h.mem b.addr).isFree = b.free.toNat
  tiles : Tiles headerSize 0 bs h.offset
  sizes : ∀ b ∈ bs, 0 < b.size ∧ 16 ∣ b.size
  top : h.offset ≤ t.poolSize

@[simp] theorem modify_same (mem : Nat → HeapBlock) (a : Nat) (f : HeapBlock → HeapBlock) :
    modify mem a f a = f (mem a) := if_pos rfl

@[simp] theorem modify_ne {mem : Nat → HeapBlock} {a x : Nat} {f : HeapBlock → HeapBlock}
    (h : x ≠ a) : modify mem a f x = mem x := if_neg h

-- Only the `prev` field of the header pointed to changes.
@[simp] theorem setPrev_size (mem : Nat → HeapBlock) (p v : Ptr) (x : Nat) :
    (setPrev mem p v x).size = (mem x).size := by
  unfold setPrev modify
  split <;> [rfl; (split <;> rfl)]

@[simp] theorem setPrev_magic (mem : Nat → HeapBlock) (p v : Ptr) (x : Nat) :
    (setPrev mem p v x).magic = (mem x).magic := by
  unfold setPrev modify
  split <;> [rfl; (split <;> rfl)]

@[simp] theorem setPrev_isFree (mem : Nat → HeapBlock) (p v : Ptr) (x : Nat) :
    (setPrev mem p v x).isFree = (mem x).isFree := by
  unfold setPrev modify
  split <;> [rfl; (split <;> rfl)]

@[simp] theorem setPrev_next (mem : Nat → HeapBlock) (p v : Ptr) (x : Nat) :
    (setPrev mem p v x).next = (mem x).next := by
  unfold setPrev modify
  split <;> [rfl; (split <;> rfl)]

theorem setPrev_prev (mem : Nat → HeapBlock) (p v : Ptr) (x : Nat) :
    (setPrev mem p v x).prev = if some x = p then v else (mem x).prev := by
  unfold setPrev modify
  cases p with
  | none => rfl
  | some a =>
      by_cases hx : x = a <;> simp [hx]

theorem add_eq (t : Target) {m n : Nat} (h : m + n < t.sizeMod) : t.add m n = m + n :=
  Nat.mod_eq_of_lt h

theorem sub_eq (t : Target) {m n : Nat} (hm : m < t.sizeMod) (h : n ≤ m) : t.sub m n = m - n := by
  unfold Target.sub
  rw [show m + t.sizeMod - n = m - n + t.sizeMod by omega, Nat.add_mod_right,
    Nat.mod_eq_of_lt (by omega)]

theorem align_eq (t : Target) {n : Nat} (h : n + 15 < t.sizeMod) :
    t.align n = (n + 15) / 16 * 16 := by
  rw [Target.align, add_eq t h]
  omega

namespace Represents

variable {t : Target} {h : Heap} {pre post bs : List Block} {b c : Block}

theorem nodup (hr : Represents t h bs) : (bs.map Block.addr).Nodup :=
  hr.tiles.nodup (by decide)

theorem size_le (hr : Represents t h bs) (hb : b ∈ bs) :
    b.addr + headerSize + b.size ≤ t.poolSize :=
  Nat.le_trans (hr.tiles.bounds hb).2 hr.top

theorem addr_ne (hr : Represents t h (pre ++ b :: post)) (hc : c ∈ pre ++ post) :
    c.addr ≠ b.addr :=
  hr.tiles.addr_ne (by decide) hc

theorem length_le (hr : Represents t h bs) : bs.length ≤ t.poolSize := by
  have hlen := hr.tiles.length_le
  have htop := hr.top
  unfold headerSize at hlen
  omega

-- Only the flag of `b` is written.
theorem setFree (hr : Represents t h (pre ++ b :: post)) (free : Bool) :
    Represents t { h with mem := modify h.mem b.addr fun x => { x with isFree := free.toNat } }
      (pre ++ { b with free := free } :: post) := by
  have hmap : (pre ++ { b with free := free } :: post).map Block.addr =
      (pre ++ b :: post).map Block.addr := by simp
  refine ⟨hmap ▸ hr.head, ?_, fun c hc => ?_, hr.tiles.setFree free, fun c hc => ?_, hr.top⟩
  · rw [hmap]
    refine hr.links.congr fun x _ => ?_
    simp only [modify]
    split <;> exact ⟨rfl, rfl⟩
  · by_cases hcb : c = { b with free := free }
    · subst hcb
      obtain ⟨hsize, hmagic, -⟩ := hr.header b (by simp)
      simp [hsize, hmagic]
    · have hmem : c ∈ pre ++ post := by
        simp only [List.mem_append, List.mem_cons] at hc ⊢
        tauto
      simp only [modify_ne (hr.addr_ne hmem)]
      exact hr.header c (by simp only [List.mem_append, List.mem_cons] at hmem ⊢; tauto)
  · simp only [List.mem_append, List.mem_cons] at hc
    rcases hc with hc | rfl | hc
    · exact hr.sizes c (by simp [hc])
    · exact hr.sizes b (by simp)
    · exact hr.sizes c (by simp [hc])

theorem next_eq (hr : Represents t h (pre ++ b :: post)) :
    (h.mem b.addr).next = (post.map Block.addr).head? := by
  have hl := hr.links
  rw [List.map_append, List.map_cons, linked_append, linked_cons] at hl
  simpa using hl.2.2.1

theorem prev_eq (hr : Represents t h (pre ++ b :: post)) :
    (h.mem b.addr).prev = (pre.map Block.addr).getLast? := by
  have hl := hr.links
  rw [List.map_append, List.map_cons, linked_append, linked_cons] at hl
  simpa using hl.2.1

theorem absorb (hr : Represents t h (pre ++ b :: c :: post)) :
    Represents t { h with mem := absorb t h.mem b.addr c.addr }
      (pre ++ merge headerSize b c :: post) := by
  have hr' : Represents t h ((pre ++ [b]) ++ c :: post) := by simpa using hr
  have hnext := hr'.next_eq
  have hbc : c.addr ≠ b.addr := hr.addr_ne (by simp)
  have hpost : ∀ d ∈ pre ++ post, d.addr ≠ b.addr := fun d hd =>
    hr.addr_ne (by simp only [List.mem_append, List.mem_cons] at hd ⊢; tauto)
  have hhead : some b.addr ≠ (post.map Block.addr).head? := by
    cases post with
    | nil => simp
    | cons d post => simpa using (hpost d (by simp)).symm
  obtain ⟨hbsize, hbmagic, hbfree⟩ := hr.header b (by simp)
  obtain ⟨hcsize, -, -⟩ := hr.header c (by simp)
  have hsum : t.add (h.mem b.addr).size (t.add headerSize (h.mem c.addr).size) =
      b.size + headerSize + c.size := by
    have hroom := t.room
    have hb := hr.size_le (b := b) (by simp)
    have hc := hr.size_le (b := c) (by simp)
    have hinner : t.add headerSize c.size = headerSize + c.size := add_eq t (by omega)
    rw [hbsize, hcsize, hinner, add_eq t (by omega), Nat.add_assoc]
  refine ⟨?_, ?_, fun d hd => ?_, hr.tiles.merge, fun d hd => ?_, hr.top⟩
  · have := hr.head
    rw [List.map_append, List.map_cons, List.head?_append] at this
    rw [this, List.map_append, List.map_cons, List.head?_append]
    rfl
  · have hl := hr.links
    have hnd := hr.nodup
    rw [List.map_append, List.map_cons, List.map_cons] at hl hnd
    rw [List.map_append, List.map_cons]
    refine hl.unlink hnd ?_ ?_ (fun z hz => ?_) fun z hz => ⟨?_, fun hz' => ?_⟩
    · simp [Libstr.absorb, merge]
    · rw [Libstr.absorb, setPrev_prev, hnext, merge, if_neg hhead, modify_same]
    · rw [Libstr.absorb, setPrev_prev, hnext, if_pos hz.symm]
      rfl
    · rw [← List.map_append] at hz
      obtain ⟨d, hd, rfl⟩ := List.mem_map.mp hz
      simp [Libstr.absorb, hpost d hd]
    · rw [← List.map_append] at hz
      obtain ⟨d, hd, rfl⟩ := List.mem_map.mp hz
      rw [Libstr.absorb, setPrev_prev, hnext, if_neg fun heq => hz' heq.symm,
        modify_ne (hpost d hd)]
  · simp only [Libstr.absorb, setPrev_size, setPrev_magic, setPrev_isFree]
    by_cases hdm : d = merge headerSize b c
    · subst hdm
      simp [merge, hsum, hbmagic, hbfree]
    · have hmem : d ∈ pre ++ post := by
        simp only [List.mem_append, List.mem_cons] at hd ⊢
        tauto
      rw [modify_ne (hpost d hmem)]
      exact hr.header d (by simp only [List.mem_append, List.mem_cons] at hmem ⊢; tauto)
  · simp only [List.mem_append, List.mem_cons] at hd
    rcases hd with hd | rfl | hd
    · exact hr.sizes d (by simp [hd])
    · obtain ⟨hb0, hb⟩ := hr.sizes b (by simp)
      obtain ⟨-, hc⟩ := hr.sizes c (by simp)
      have hhdr : 16 ∣ headerSize := by decide
      exact ⟨by simp only [merge]; omega, Nat.dvd_add (Nat.dvd_add hb hhdr) hc⟩
    · exact hr.sizes d (by simp [hd])

theorem split (hr : Represents t h (pre ++ b :: post)) {size : Nat} (h0 : 0 < size)
    (h16 : 16 ∣ size) (hsize : size + headerSize + 16 ≤ b.size) :
    Represents t { h with mem := splitBlock t h.mem b.addr size }
      (pre ++ ⟨b.addr, size, b.free⟩ ::
        ⟨b.addr + headerSize + size, b.size - size - headerSize, true⟩ :: post) := by
  generalize hnew : (⟨b.addr + headerSize + size, b.size - size - headerSize, true⟩ : Block) = s
  have hs : s.addr = b.addr + headerSize + size := by rw [← hnew]
  have hnext := hr.next_eq
  have htiles : Tiles headerSize 0 (pre ++ ⟨b.addr, size, b.free⟩ :: s :: post) h.offset := by
    have htiles := hr.tiles
    rw [tiles_append] at htiles ⊢
    obtain ⟨m, hpre, haddr, hrest⟩ := htiles
    have hend : m + headerSize + size + headerSize + s.size = m + headerSize + b.size := by
      rw [← hnew]
      simp only
      omega
    exact ⟨m, hpre, haddr, by rw [hs, haddr], hend ▸ hrest⟩
  have hb : ∀ d ∈ pre ++ post, d.addr ≠ b.addr := fun d hd => hr.addr_ne hd
  have hne : ∀ d ∈ pre ++ post, d.addr ≠ s.addr := fun d hd => by
    rw [List.append_cons] at htiles
    exact htiles.addr_ne (by decide) (by simp only [List.mem_append] at hd ⊢; tauto)
  have hsb : s.addr ≠ b.addr := by omega
  have hhead : ∀ a, (∀ d ∈ post, d.addr ≠ a) → some a ≠ (post.map Block.addr).head? := by
    intro a ha
    cases post with
    | nil => simp
    | cons d post => simpa using (ha d (by simp)).symm
  have hrest : t.sub (t.sub (h.mem b.addr).size size) headerSize = s.size := by
    have hroom := t.room
    have hle := hr.size_le (b := b) (by simp)
    have hinner : t.sub b.size size = b.size - size := sub_eq t (by omega) (by omega)
    rw [(hr.header b (by simp)).1, hinner, sub_eq t (by omega) (by omega), ← hnew]
  refine ⟨?_, ?_, fun d hd => ?_, htiles, fun d hd => ?_, hr.top⟩
  · simpa using hr.head
  · have hl := hr.links
    rw [List.map_append, List.map_cons] at hl
    rw [List.map_append, List.map_cons, List.map_cons]
    refine hl.link (by simpa using htiles.nodup (by decide)) ?_ ?_ ?_ ?_ (fun z hz => ?_)
      fun z hz => ⟨?_, fun hz' => ?_⟩
    · simp [splitBlock, hs]
    · dsimp only
      rw [splitBlock, modify_same, setPrev_prev, hnext,
        if_neg (hhead _ fun d hd => hb d (by simp [hd])), ← hs, modify_ne hsb.symm]
    · simp [splitBlock, ← hs, hsb]
    · dsimp only
      rw [splitBlock, ← hs, modify_ne hsb, setPrev_prev, hnext,
        if_neg (hhead _ fun d hd => hne d (by simp [hd])), modify_same]
    · obtain ⟨d, hd, rfl⟩ := List.mem_map.mp (List.mem_of_mem_head? hz)
      dsimp only
      rw [splitBlock, modify_ne (hb d (by simp [hd])), setPrev_prev, hnext, if_pos hz.symm, hs]
    · rw [← List.map_append] at hz
      obtain ⟨d, hd, rfl⟩ := List.mem_map.mp hz
      dsimp only
      rw [splitBlock, modify_ne (hb d hd), setPrev_next, ← hs, modify_ne (hne d hd)]
    · rw [← List.map_append] at hz
      obtain ⟨d, hd, rfl⟩ := List.mem_map.mp hz
      dsimp only
      rw [splitBlock, modify_ne (hb d hd), setPrev_prev, hnext, if_neg fun heq => hz' heq.symm,
        ← hs, modify_ne (hne d hd)]
  · obtain ⟨hbsize, hbmagic, hbfree⟩ := hr.header b (by simp)
    rw [List.mem_append, List.mem_cons, List.mem_cons] at hd
    dsimp only
    rcases hd with hd | rfl | rfl | hd
    · rw [splitBlock, modify_ne (hb d (by simp [hd])), setPrev_size, setPrev_magic, setPrev_isFree,
        ← hs, modify_ne (hne d (by simp [hd]))]
      exact hr.header d (by simp [hd])
    · simp only [splitBlock, modify_same, setPrev_magic, setPrev_isFree]
      rw [← hs, modify_ne hsb.symm]
      exact ⟨trivial, hbmagic, hbfree⟩
    · rw [splitBlock, modify_ne hsb, setPrev_size, setPrev_magic, setPrev_isFree, ← hs,
        modify_same]
      exact ⟨hrest, rfl, by rw [← hnew]; rfl⟩
    · rw [splitBlock, modify_ne (hb d (by simp [hd])), setPrev_size, setPrev_magic, setPrev_isFree,
        ← hs, modify_ne (hne d (by simp [hd]))]
      exact hr.header d (by simp [hd])
  · rw [List.mem_append, List.mem_cons, List.mem_cons] at hd
    rcases hd with hd | rfl | rfl | hd
    · exact hr.sizes d (by simp [hd])
    · exact ⟨h0, h16⟩
    · obtain ⟨-, hb16⟩ := hr.sizes b (by simp)
      have hhdr : 16 ∣ headerSize := by decide
      rw [← hnew]
      exact ⟨by simp only; omega, Nat.dvd_sub (Nat.dvd_sub hb16 h16) hhdr⟩
    · exact hr.sizes d (by simp [hd])

-- The header at the end of the pool's used part belongs to no block.
theorem ne_offset (hr : Represents t h bs) (hb : b ∈ bs) : b.addr ≠ h.offset := by
  have := (hr.tiles.bounds hb).2
  unfold headerSize at this
  omega

private theorem concat_fields (hr : Represents t h bs) {size : Nat} (h0 : 0 < size)
    (h16 : 16 ∣ size) :
    Tiles headerSize 0 (bs ++ [⟨h.offset, size, false⟩]) (h.offset + headerSize + size) ∧
      ∀ b ∈ bs ++ [⟨h.offset, size, false⟩], 0 < b.size ∧ 16 ∣ b.size := by
  constructor
  · exact (tiles_append ..).mpr ⟨h.offset, hr.tiles, rfl, rfl⟩
  · intro b hb
    rw [List.mem_append, List.mem_singleton] at hb
    rcases hb with hb | rfl
    · exact hr.sizes b hb
    · exact ⟨h0, h16⟩

-- A first block is laid at the bump pointer.
theorem first (hr : Represents t h []) {size : Nat} (h0 : 0 < size) (h16 : 16 ∣ size)
    (hfit : h.offset + headerSize + size ≤ t.poolSize) :
    Represents t
      { h with
        offset := h.offset + headerSize + size, head := some h.offset,
        mem := modify h.mem h.offset fun _ => ⟨size, 0, heapMagic, none, none⟩ }
      [⟨h.offset, size, false⟩] := by
  obtain ⟨htiles, hsizes⟩ := concat_fields hr h0 h16
  exact ⟨rfl, by simp, by simp, htiles, hsizes, hfit⟩

-- A block is laid at the bump pointer and hung on the last one.
theorem concat (hr : Represents t h (pre ++ [b])) {size : Nat} (h0 : 0 < size) (h16 : 16 ∣ size)
    (hfit : h.offset + headerSize + size ≤ t.poolSize) :
    Represents t
      { h with
        offset := h.offset + headerSize + size,
        mem := modify (modify (modify h.mem h.offset fun _ => ⟨size, 0, heapMagic, none, none⟩)
          b.addr fun x => { x with next := some h.offset })
          h.offset fun x => { x with prev := some b.addr } }
      (pre ++ [b] ++ [⟨h.offset, size, false⟩]) := by
  obtain ⟨htiles, hsizes⟩ := concat_fields hr h0 h16
  have hoff : ∀ d ∈ pre ++ [b], d.addr ≠ h.offset := fun d hd => hr.ne_offset hd
  have hb := hoff b (by simp)
  refine ⟨?_, ?_, fun d hd => ?_, htiles, hsizes, hfit⟩
  · have hhead := hr.head
    cases pre <;> simpa using hhead
  · have hl := hr.links
    have hnd := hr.nodup
    rw [List.map_append, linked_append]
    refine ⟨hl.retail hnd (fun z hz => ?_) fun z hz => ⟨?_, fun hz' => ?_⟩, ?_, ?_, trivial⟩
    · obtain rfl : b.addr = z := by simpa using hz
      simp [hb]
    · obtain ⟨d, hd, rfl⟩ := List.mem_map.mp hz
      by_cases hdb : d.addr = b.addr
      · simp [hdb, hb]
      · simp [hdb, hoff d hd]
    · obtain ⟨d, hd, rfl⟩ := List.mem_map.mp hz
      have hdb : d.addr ≠ b.addr := fun heq => hz' (by simp [heq])
      simp [hdb, hoff d hd]
    · simp
    · simp [hb.symm]
  · rw [List.mem_append, List.mem_singleton] at hd
    rcases hd with hd | rfl
    · obtain ⟨hsize, hmagic, hfree⟩ := hr.header d hd
      by_cases hdb : d.addr = b.addr
      · rw [hdb] at hsize hmagic hfree
        simp [hdb, hb, hsize, hmagic, hfree]
      · simp [modify_ne (hoff d hd), hdb, hsize, hmagic, hfree]
    · simp [hb.symm]

-- The last block is cut off.
theorem cut_first (hr : Represents t h [b]) :
    Represents t { h with head := none, offset := b.addr } [] := by
  refine ⟨rfl, trivial, by simp, hr.tiles.1.symm, by simp, ?_⟩
  have hle := hr.size_le (b := b) (by simp)
  dsimp only
  omega

theorem cut (hr : Represents t h (pre ++ [b] ++ [c])) :
    Represents t
      { h with mem := modify h.mem b.addr fun x => { x with next := none }, offset := c.addr }
      (pre ++ [b]) := by
  have hle := hr.size_le (b := c) (by simp)
  have htiles : Tiles headerSize 0 (pre ++ [b]) c.addr := by
    obtain ⟨m, hpre, haddr, -⟩ := (tiles_append ..).mp hr.tiles
    exact haddr ▸ hpre
  refine ⟨?_, ?_, fun d hd => ?_, htiles, fun d hd => hr.sizes d (List.mem_append_left _ hd),
    by dsimp only; omega⟩
  · have hhead := hr.head
    cases pre <;> simpa using hhead
  · have hl := hr.links
    rw [List.map_append, linked_append] at hl
    refine hl.1.retail (htiles.nodup (by decide)) (fun z hz => ?_) fun z hz => ⟨?_, fun hz' => ?_⟩
    · obtain rfl : b.addr = z := by simpa using hz
      simp
    · by_cases hzb : z = b.addr <;> simp [hzb]
    · have hzb : z ≠ b.addr := fun heq => hz' (by simp [heq])
      simp [hzb]
  · obtain ⟨hsize, hmagic, hfree⟩ := hr.header d (List.mem_append_left _ hd)
    by_cases hdb : d.addr = b.addr
    · rw [hdb] at hsize hmagic hfree
      simp [hdb, hsize, hmagic, hfree]
    · simp [hdb, hsize, hmagic, hfree]

-- The search stops at the first free block that is large enough.
theorem findFit_eq {mem : Nat → HeapBlock} (size : Nat) :
    ∀ {bs : List Block} {before : Ptr} (fuel : Nat), bs.length ≤ fuel →
      Linked (fun a => (mem a).next) (fun a => (mem a).prev) before (bs.map Block.addr) none →
      (∀ b ∈ bs, (mem b.addr).size = b.size ∧ (mem b.addr).magic = heapMagic ∧
        (mem b.addr).isFree = b.free.toNat) →
      findFit mem size fuel (bs.map Block.addr).head? =
        some ((bs.find? fun b => b.free && decide (size ≤ b.size)).map Block.addr) := by
  intro bs
  induction bs with
  | nil => intro _ fuel _ _ _; cases fuel <;> rfl
  | cons b bs ih =>
      intro before fuel hfuel hl hh
      obtain ⟨fuel, rfl⟩ : ∃ m, fuel = m + 1 := ⟨fuel - 1, by simp at hfuel; omega⟩
      obtain ⟨-, hnext, hrest⟩ := hl
      have hnext' : (mem b.addr).next = (bs.map Block.addr).head? := by simpa using hnext
      obtain ⟨hsize, hmagic, hfree⟩ := hh b (by simp)
      have hfits : fits (mem b.addr) size ↔ (b.free && decide (size ≤ b.size)) = true := by
        cases hb : b.free <;> simp [fits, hsize, hmagic, hfree, hb]
      rw [List.map_cons, List.head?_cons, findFit, List.find?_cons]
      by_cases hf : fits (mem b.addr) size
      · rw [if_pos hf, hfits.mp hf]
        rfl
      · have hnf : (b.free && decide (size ≤ b.size)) = false := by
          rwa [hfits, Bool.not_eq_true] at hf
        rw [if_neg hf, hnf, hnext']
        exact ih fuel (by simpa using hfuel) hrest fun c hc => hh c (by simp [hc])

theorem findTail_eq {mem : Nat → HeapBlock} :
    ∀ {as : List Nat} {before : Ptr} {a : Nat} (fuel : Nat), as.length < fuel →
      Linked (fun a => (mem a).next) (fun a => (mem a).prev) before (a :: as) none →
      findTail mem fuel a = (a :: as).getLast? := by
  intro as
  induction as with
  | nil =>
      intro before a fuel hfuel hl
      obtain ⟨fuel, rfl⟩ : ∃ m, fuel = m + 1 := ⟨fuel - 1, by simp at hfuel; omega⟩
      simp [findTail, hl.2.1]
  | cons b as ih =>
      intro before a fuel hfuel hl
      obtain ⟨fuel, rfl⟩ : ∃ m, fuel = m + 1 := ⟨fuel - 1, by simp at hfuel; omega⟩
      have hnext : (mem a).next = some b := by simpa using hl.2.1
      rw [findTail, hnext, List.getLast?_cons_cons]
      exact ih fuel (by simpa using hfuel) hl.2.2

end Represents

end BTron.Libstr
