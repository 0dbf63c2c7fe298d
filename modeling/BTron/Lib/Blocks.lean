import Mathlib.Data.List.Basic
import Mathlib.Data.List.Chain
import Mathlib.Data.List.Nodup

namespace BTron.Lib.Blocks

-- A block of an arena: a header at `addr`, then `size` bytes of payload.
structure Block where
  addr : Nat
  size : Nat
  free : Bool
  deriving DecidableEq, Repr

-- The blocks, each with a header of `hdr` bytes, fill the addresses from `a` to `e`.
def Tiles (hdr : Nat) : Nat → List Block → Nat → Prop
  | a, [], e => a = e
  | a, b :: bs, e => b.addr = a ∧ Tiles hdr (a + hdr + b.size) bs e

def used (bs : List Block) : List Block := bs.filter fun b => !b.free

-- No two neighbours are both free and the last block is in use.
def Canonical (bs : List Block) : Prop :=
  bs.IsChain (fun b c => b.free = true → c.free = false) ∧ ∀ b ∈ bs.getLast?, b.free = false

-- A free block is given to a request of `n` bytes, whole or cut in two.
def carve (hdr least n : Nat) (b : Block) : List Block :=
  if n + hdr + least ≤ b.size then
    [⟨b.addr, n, false⟩, ⟨b.addr + hdr + n, b.size - n - hdr, true⟩]
  else [⟨b.addr, b.size, false⟩]

-- Two neighbours become one block, free or not as the first of them.
def merge (hdr : Nat) (b c : Block) : Block := ⟨b.addr, b.size + hdr + c.size, b.free⟩

def mergeNext (hdr : Nat) (b : Block) : List Block → Block × List Block
  | [] => (b, [])
  | c :: post => if c.free then (merge hdr b c, post) else (b, c :: post)

def mergePrev (hdr : Nat) (pre : List Block) (b : Block) : List Block × Block :=
  match pre.getLast? with
  | none => (pre, b)
  | some c => if c.free then (pre.dropLast, merge hdr c b) else (pre, b)

-- The block `b` between `pre` and `post` is given back: it is merged with its free
-- neighbours and cut off when it is the last.
def release (hdr : Nat) (pre : List Block) (b : Block) (post : List Block) : List Block :=
  let next := mergeNext hdr { b with free := true } post
  let prev := mergePrev hdr pre next.1
  if next.2 = [] then prev.1 else prev.1 ++ prev.2 :: next.2

-- A request of `size` bytes is served from the first free block that is large enough, else
-- behind the last block, else not at all. The result is the address of the block.
inductive Allocates (hdr least pool size : Nat) : List Block → Option Nat → List Block → Prop
  | reuse {pre post : List Block} {b : Block} (hfree : b.free = true) (hsize : size ≤ b.size)
      (hfirst : ∀ c ∈ pre, c.free = true → c.size < size) :
      Allocates hdr least pool size (pre ++ b :: post) (some b.addr)
        (pre ++ carve hdr least size b ++ post)
  | bump {bs : List Block} {e : Nat} (hnone : ∀ c ∈ bs, c.free = true → c.size < size)
      (hend : Tiles hdr 0 bs e) (hroom : e + hdr + size ≤ pool) :
      Allocates hdr least pool size bs (some e) (bs ++ [⟨e, size, false⟩])
  | full {bs : List Block} {e : Nat} (hnone : ∀ c ∈ bs, c.free = true → c.size < size)
      (hend : Tiles hdr 0 bs e) (hroom : pool < e + hdr + size) :
      Allocates hdr least pool size bs none bs

variable {hdr : Nat}

theorem tiles_append {a e : Nat} (bs cs : List Block) :
    Tiles hdr a (bs ++ cs) e ↔ ∃ m, Tiles hdr a bs m ∧ Tiles hdr m cs e := by
  induction bs generalizing a with
  | nil => simp [Tiles]
  | cons b bs ih => simp only [List.cons_append, Tiles, ih, and_assoc, exists_and_left]

theorem Tiles.le {a e : Nat} {bs : List Block} (h : Tiles hdr a bs e) : a ≤ e := by
  induction bs generalizing a with
  | nil => exact Nat.le_of_eq h
  | cons b bs ih =>
      have := ih h.2
      omega

theorem Tiles.length_le {a e : Nat} {bs : List Block} (h : Tiles hdr a bs e) :
    a + hdr * bs.length ≤ e := by
  induction bs generalizing a with
  | nil => exact Nat.le_of_eq h
  | cons b bs ih =>
      have := ih h.2
      rw [List.length_cons, Nat.mul_succ]
      omega

theorem Tiles.bounds {a e : Nat} {bs : List Block} (h : Tiles hdr a bs e) {b : Block}
    (hb : b ∈ bs) : a ≤ b.addr ∧ b.addr + hdr + b.size ≤ e := by
  induction bs generalizing a with
  | nil => simp at hb
  | cons c bs ih =>
      obtain ⟨haddr, hrest⟩ := h
      have hle := hrest.le
      rcases List.mem_cons.mp hb with rfl | hb
      · omega
      · have := ih hrest hb
        omega

-- Later blocks lie wholly behind earlier ones.
theorem Tiles.pairwise {a e : Nat} {bs : List Block} (h : Tiles hdr a bs e) :
    bs.Pairwise fun b c => b.addr + hdr + b.size ≤ c.addr := by
  induction bs generalizing a with
  | nil => exact List.Pairwise.nil
  | cons b bs ih =>
      obtain ⟨rfl, hrest⟩ := h
      exact List.pairwise_cons.mpr ⟨fun c hc => (hrest.bounds hc).1, ih hrest⟩

theorem Tiles.apart {a e : Nat} {bs : List Block} (h : Tiles hdr a bs e) {b c : Block}
    (hb : b ∈ bs) (hc : c ∈ bs) (hne : b ≠ c) :
    b.addr + hdr + b.size ≤ c.addr ∨ c.addr + hdr + c.size ≤ b.addr := by
  have hsymm : Std.Symm fun b c : Block =>
      b.addr + hdr + b.size ≤ c.addr ∨ c.addr + hdr + c.size ≤ b.addr := ⟨fun _ _ => Or.symm⟩
  have hpair : bs.Pairwise fun b c =>
      b.addr + hdr + b.size ≤ c.addr ∨ c.addr + hdr + c.size ≤ b.addr := h.pairwise.imp Or.inl
  exact hpair.forall hb hc hne

theorem Tiles.sorted {a e : Nat} {bs : List Block} (hhdr : 0 < hdr) (h : Tiles hdr a bs e) :
    (bs.map Block.addr).Pairwise (· < ·) := by
  rw [List.pairwise_map]
  exact h.pairwise.imp fun hbc => by omega

theorem Tiles.nodup {a e : Nat} {bs : List Block} (hhdr : 0 < hdr) (h : Tiles hdr a bs e) :
    (bs.map Block.addr).Nodup :=
  (h.sorted hhdr).imp Nat.ne_of_lt

theorem Tiles.addr_ne {a e : Nat} {pre post : List Block} {b c : Block} (hhdr : 0 < hdr)
    (h : Tiles hdr a (pre ++ b :: post) e) (hc : c ∈ pre ++ post) : c.addr ≠ b.addr := by
  have hnd := h.nodup hhdr
  rw [List.map_append, List.map_cons, List.nodup_middle, ← List.map_append] at hnd
  intro heq
  exact (List.nodup_cons.mp hnd).1 (heq ▸ List.mem_map_of_mem hc)

theorem Tiles.carve {least n a e : Nat} {pre post : List Block} {b : Block}
    (h : Tiles hdr a (pre ++ b :: post) e) :
    Tiles hdr a (pre ++ carve hdr least n b ++ post) e := by
  rw [List.append_assoc, tiles_append] at *
  obtain ⟨m, hpre, haddr, hpost⟩ := h
  refine ⟨m, hpre, ?_⟩
  unfold Blocks.carve
  split
  · have hend : m + hdr + n + hdr + (b.size - n - hdr) = m + hdr + b.size := by omega
    exact ⟨haddr, by rw [haddr], hend ▸ hpost⟩
  · exact ⟨haddr, hpost⟩

theorem Tiles.merge {a e : Nat} {pre post : List Block} {b c : Block}
    (h : Tiles hdr a (pre ++ b :: c :: post) e) :
    Tiles hdr a (pre ++ merge hdr b c :: post) e := by
  rw [tiles_append] at *
  obtain ⟨m, hpre, haddr, -, hpost⟩ := h
  have hend : m + hdr + (b.size + hdr + c.size) = m + hdr + b.size + hdr + c.size := by omega
  exact ⟨m, hpre, haddr, hend ▸ hpost⟩

theorem Tiles.setFree {a e : Nat} {pre post : List Block} {b : Block} (free : Bool)
    (h : Tiles hdr a (pre ++ b :: post) e) :
    Tiles hdr a (pre ++ { b with free := free } :: post) e := by
  rw [tiles_append] at *
  exact h

@[simp] theorem used_append (bs cs : List Block) : used (bs ++ cs) = used bs ++ used cs :=
  List.filter_append ..

theorem mem_used {b : Block} {bs : List Block} : b ∈ used bs ↔ b ∈ bs ∧ b.free = false := by
  simp [used]

theorem used_carve (hdr least n : Nat) (b : Block) :
    ∃ c ∈ carve hdr least n b, c.addr = b.addr ∧ used (carve hdr least n b) = [c] := by
  unfold carve
  split <;> simp [used]

theorem carve_size {least n : Nat} {b c : Block} (hn : n ≤ b.size)
    (hc : c ∈ carve hdr least n b ∧ c.free = false) : n ≤ c.size := by
  unfold carve at hc
  split at hc
  · obtain ⟨hc, hfree⟩ := hc
    simp only [List.mem_cons, List.not_mem_nil, or_false] at hc
    rcases hc with rfl | rfl
    · exact Nat.le_refl _
    · simp at hfree
  · obtain rfl : c = ⟨b.addr, b.size, false⟩ := by simpa using hc.1
    exact hn

theorem used_mergeNext (hdr : Nat) (b : Block) (post : List Block) :
    used (mergeNext hdr b post).2 = used post := by
  unfold mergeNext
  split
  · rfl
  · split <;> simp [used, *]

theorem used_mergePrev (hdr : Nat) (pre : List Block) (b : Block) :
    used (mergePrev hdr pre b).1 = used pre := by
  rcases pre.eq_nil_or_concat with rfl | ⟨pre, c, rfl⟩
  · rfl
  · unfold mergePrev
    by_cases hc : c.free <;> simp [used, hc]

theorem mergeNext_free (hdr : Nat) {b : Block} (hb : b.free = true) (post : List Block) :
    (mergeNext hdr b post).1.free = true := by
  unfold mergeNext
  split
  · exact hb
  · split <;> exact hb

theorem mergePrev_free (hdr : Nat) (pre : List Block) {b : Block} (hb : b.free = true) :
    (mergePrev hdr pre b).2.free = true := by
  unfold mergePrev
  split
  · exact hb
  · split
    · assumption
    · exact hb

-- Giving a block back takes nothing else out of use.
theorem used_release (pre : List Block) (b : Block) (post : List Block) :
    used (release hdr pre b post) = used pre ++ used post := by
  have hnext := mergeNext_free hdr (show { b with free := true }.free = true from rfl) post
  have hfree := mergePrev_free hdr pre hnext
  have hpre := used_mergePrev hdr pre (mergeNext hdr { b with free := true } post).1
  have hpost := used_mergeNext hdr { b with free := true } post
  unfold release
  simp only
  split
  · rename_i hnil
    rw [hnil] at hpost
    rw [hpre, ← hpost]
    exact (List.append_nil _).symm
  · rw [used_append, hpre, ← hpost]
    simp [used, hfree]

theorem canonical_nil : Canonical [] := ⟨List.isChain_nil, by simp⟩

theorem Canonical.eq_nil {bs : List Block} (h : Canonical bs) (hused : used bs = []) : bs = [] := by
  rcases bs.eq_nil_or_concat with rfl | ⟨bs, b, rfl⟩
  · rfl
  · have hb : b.free = false := h.2 b (by simp)
    simp [used, hb] at hused

theorem Canonical.append {bs : List Block} (h : Canonical bs) {b : Block} (hb : b.free = false) :
    Canonical (bs ++ [b]) := by
  refine ⟨List.isChain_append.mpr ⟨h.1, List.isChain_singleton _, ?_⟩, by simp [hb]⟩
  simp [hb]

-- A free block has a predecessor and a successor in use.
theorem Canonical.carve {least n : Nat} {pre post : List Block} {b : Block}
    (h : Canonical (pre ++ b :: post)) (hb : b.free = true) :
    Canonical (pre ++ carve hdr least n b ++ post) := by
  obtain ⟨hchain, hlast⟩ := h
  rw [List.isChain_append, List.isChain_cons] at hchain
  obtain ⟨hpre, ⟨hnext, hpost⟩, hprev⟩ := hchain
  obtain ⟨c, cs, rfl⟩ : ∃ c cs, post = c :: cs := by
    cases post with
    | nil => exact absurd (hlast b (by simp)) (by simp [hb])
    | cons c cs => exact ⟨c, cs, rfl⟩
  have hc : c.free = false := hnext c rfl hb
  refine ⟨?_, fun d hd => hlast d ?_⟩
  · unfold Blocks.carve
    split <;> simp [List.isChain_append, List.isChain_cons, hpre, hc, List.isChain_cons.mp hpost]
  · simpa using hd

theorem Allocates.canonical {least pool size : Nat} {bs bs' : List Block} {p : Option Nat}
    (ha : Allocates hdr least pool size bs p bs') (h : Canonical bs) : Canonical bs' := by
  cases ha with
  | reuse hfree _ _ => exact h.carve hfree
  | bump _ _ _ => exact h.append rfl
  | full _ _ _ => exact h

-- A served request puts one block in use and leaves the others in use as they are.
theorem Allocates.used {least pool size a : Nat} {bs bs' : List Block}
    (ha : Allocates hdr least pool size bs (some a) bs') :
    ∃ b, b.addr = a ∧ size ≤ b.size ∧ (used bs').Perm (b :: used bs) := by
  cases ha with
  | @reuse pre post b hfree hsize hfirst =>
      obtain ⟨c, hc, haddr, hused⟩ := used_carve hdr least size b
      refine ⟨c, haddr, carve_size hsize (mem_used.mp (hused ▸ List.mem_singleton_self c)), ?_⟩
      rw [used_append, used_append, hused, used_append]
      have hb : Blocks.used (b :: post) = Blocks.used post := by simp [Blocks.used, hfree]
      rw [hb, List.append_assoc]
      exact List.perm_middle
  | bump hnone hend hroom =>
      refine ⟨⟨a, size, false⟩, rfl, Nat.le_refl _, ?_⟩
      rw [used_append]
      exact List.perm_append_comm

private theorem mergeNext_chain (hdr : Nat) (b : Block) {post : List Block}
    (hpost : post.IsChain fun b c => b.free = true → c.free = false)
    (hlast : ∀ c ∈ post.getLast?, c.free = false) :
    ((mergeNext hdr b post).2.IsChain fun b c => b.free = true → c.free = false) ∧
      (∀ c ∈ (mergeNext hdr b post).2.head?, c.free = false) ∧
      ∀ c ∈ (mergeNext hdr b post).2.getLast?, c.free = false := by
  unfold mergeNext
  cases post with
  | nil => simp
  | cons c cs =>
      rw [List.isChain_cons] at hpost
      by_cases hc : c.free
      · simp only [hc, if_true]
        refine ⟨hpost.2, fun d hd => hpost.1 d hd hc, fun d hd => hlast d ?_⟩
        simp [List.getLast?_cons, Option.mem_def.mp hd]
      · simp only [hc]
        exact ⟨List.isChain_cons.mpr hpost, by simp [hc], hlast⟩

private theorem mergePrev_chain (hdr : Nat) {pre : List Block} (b : Block)
    (hpre : pre.IsChain fun b c => b.free = true → c.free = false) :
    ((mergePrev hdr pre b).1.IsChain fun b c => b.free = true → c.free = false) ∧
      ∀ c ∈ (mergePrev hdr pre b).1.getLast?, c.free = false := by
  rcases pre.eq_nil_or_concat with rfl | ⟨pre, c, rfl⟩
  · simp [mergePrev]
  · rw [List.concat_eq_append, List.isChain_append] at *
    by_cases hc : c.free
    · simp only [mergePrev, List.getLast?_concat, hc, if_true, List.dropLast_concat]
      refine ⟨hpre.1, fun d hd => ?_⟩
      by_contra hd'
      exact absurd (hpre.2.2 d hd c (by simp) (by simpa using hd')) (by simp [hc])
    · simp [mergePrev, hc, List.isChain_append, hpre.1]

theorem Canonical.release {pre post : List Block} {b : Block} (h : Canonical (pre ++ b :: post)) :
    Canonical (release hdr pre b post) := by
  obtain ⟨hchain, hlast⟩ := h
  rw [List.isChain_append, List.isChain_cons] at hchain
  obtain ⟨hpre, ⟨-, hpost⟩, -⟩ := hchain
  have hlast' : ∀ c ∈ post.getLast?, c.free = false := fun c hc =>
    hlast c (by simp [List.getLast?_append, List.getLast?_cons, Option.mem_def.mp hc])
  obtain ⟨hnext, hhead, hend⟩ := mergeNext_chain hdr { b with free := true } hpost hlast'
  obtain ⟨hprev, hbefore⟩ := mergePrev_chain hdr (mergeNext hdr { b with free := true } post).1 hpre
  unfold Blocks.release
  simp only
  split
  · exact ⟨hprev, hbefore⟩
  · rename_i hne
    refine ⟨List.isChain_append.mpr ⟨hprev, List.isChain_cons.mpr ⟨fun c hc _ => hhead c hc, hnext⟩,
      fun c hc _ _ hfree => absurd hfree (by simp [hbefore c hc])⟩, fun c hc => hend c ?_⟩
    rw [List.getLast?_append, List.getLast?_cons] at hc
    obtain ⟨d, hd⟩ := Option.isSome_iff_exists.mp (List.getLast?_isSome.mpr hne)
    simpa [hd] using hc

end BTron.Lib.Blocks
