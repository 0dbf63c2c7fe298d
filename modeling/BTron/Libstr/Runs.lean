import BTron.Libstr.Spec
import BTron.Lib.Run

namespace BTron.Libstr

open Lib Lib.Blocks Relation

-- A live pointer and the number of bytes its caller asked for.
structure Allocation where
  ptr : Nat
  requested : Nat
  deriving DecidableEq

structure World where
  heap : Heap
  live : List Allocation

inductive Call where
  | imalloc (size : Nat)
  | icalloc (nmemb size : Nat)
  | ifree (ptr : Ptr)
  deriving DecidableEq

def World.start : World := ⟨emptyHeap, []⟩

def grant (n : Nat) (live : List Allocation) : Ptr → List Allocation
  | none => live
  | some p => ⟨p, n⟩ :: live

-- `none` stands for a call that does not return.
def World.call (t : Target) (w : World) : Call → Option World
  | .imalloc size => (imalloc t w.heap size).map fun r => ⟨r.2, grant size w.live r.1⟩
  | .icalloc nmemb size =>
    (icalloc t w.heap nmemb size).map fun r => ⟨r.2, grant (nmemb * size) w.live r.1⟩
  | .ifree ptr => some ⟨ifree t w.heap ptr, w.live.filter fun a => some a.ptr ≠ ptr⟩

-- Requests up to the pool size; what is freed is NULL or live.
def Allowed (t : Target) (w : World) : Call → Prop
  | .imalloc size => size ≤ t.poolSize
  | .icalloc nmemb size => nmemb * size ≤ t.poolSize
  | .ifree none => True
  | .ifree (some p) => p ∈ w.live.map Allocation.ptr

instance (t : Target) (w : World) : (c : Call) → Decidable (Allowed t w c)
  | .imalloc size => inferInstanceAs (Decidable (size ≤ t.poolSize))
  | .icalloc nmemb size => inferInstanceAs (Decidable (nmemb * size ≤ t.poolSize))
  | .ifree none => inferInstanceAs (Decidable True)
  | .ifree (some p) => inferInstanceAs (Decidable (p ∈ w.live.map Allocation.ptr))

def Step (t : Target) (w w' : World) : Prop := ∃ c, Allowed t w c ∧ w.call t c = some w'

def Reachable (t : Target) : World → Prop := ReflTransGen (Step t) World.start

def capacity (h : Heap) (p : Nat) : Nat := (h.mem (p - headerSize)).size

-- The block list is `bs`; the live allocations sit in blocks of it.
structure WellFormed (t : Target) (w : World) (bs : List Block) : Prop where
  head : w.heap.head = (bs.map Block.addr).head?
  links : Linked (fun a => (w.heap.mem a).next) (fun a => (w.heap.mem a).prev) none
    (bs.map Block.addr) none
  ordered : (bs.map Block.addr).Pairwise (· < ·)
  inverse : ∀ b ∈ bs, ∀ c ∈ bs,
    (w.heap.mem b.addr).next = some c.addr ↔ (w.heap.mem c.addr).prev = some b.addr
  header : ∀ b ∈ bs, (w.heap.mem b.addr).size = b.size ∧
    (w.heap.mem b.addr).magic = heapMagic ∧ (w.heap.mem b.addr).isFree = b.free.toNat
  tiles : Tiles headerSize 0 bs w.heap.offset
  sizes : ∀ b ∈ bs, 0 < b.size ∧ 16 ∣ b.size
  live : ∀ a ∈ w.live, ∃ b ∈ bs, b.addr + headerSize = a.ptr ∧ b.free = false ∧
    a.requested ≤ capacity w.heap a.ptr ∧ a.ptr + capacity w.heap a.ptr ≤ t.poolSize
  disjoint : w.live.Pairwise fun a b =>
    a.ptr + capacity w.heap a.ptr ≤ b.ptr ∨ b.ptr + capacity w.heap b.ptr ≤ a.ptr

def payload (b : Block) : Nat := b.addr + headerSize

-- The live allocations are the blocks in use, each with room for what was asked for.
structure Tracks (live : List Allocation) (bs : List Block) : Prop where
  ptrs : (live.map Allocation.ptr).Perm ((used bs).map payload)
  room : ∀ a ∈ live, ∃ b ∈ used bs, payload b = a.ptr ∧ a.requested ≤ b.size

def Invariant (t : Target) (w : World) : Prop :=
  ∃ bs, Represents t w.heap bs ∧ Canonical bs ∧ Tracks w.live bs

variable {t : Target} {w w' : World} {h : Heap} {bs bs' : List Block} {live : List Allocation}

theorem Tracks.grant (ht : Tracks live bs) {b : Block} {n : Nat} (hn : n ≤ b.size)
    (hused : (used bs').Perm (b :: used bs)) :
    Tracks (Libstr.grant n live (some (payload b))) bs' := by
  refine ⟨?_, fun a ha => ?_⟩
  · have hmap := hused.map payload
    rw [List.map_cons] at hmap
    exact (ht.ptrs.cons _).trans hmap.symm
  · rcases List.mem_cons.mp ha with rfl | ha
    · exact ⟨b, hused.mem_iff.mpr List.mem_cons_self, rfl, hn⟩
    · obtain ⟨c, hc, hptr, hreq⟩ := ht.room a ha
      exact ⟨c, hused.mem_iff.mpr (List.mem_cons_of_mem _ hc), hptr, hreq⟩

theorem Tracks.drop {pre post : List Block} {b : Block} (ht : Tracks live (pre ++ b :: post))
    (hr : Represents t h (pre ++ b :: post)) (hb : b.free = false) :
    Tracks (live.filter fun a => some a.ptr ≠ some (payload b))
      (release headerSize pre b post) := by
  have hne : ∀ c ∈ pre ++ post, payload c ≠ payload b := fun c hc heq =>
    hr.addr_ne hc (Nat.add_right_cancel heq)
  have husedb : used (pre ++ b :: post) = used pre ++ b :: used post := by
    simp [used, hb]
  have hkeep : ∀ c, c ∈ used (pre ++ b :: post) → payload c ≠ payload b →
      c ∈ used (release headerSize pre b post) := by
    intro c hc hcb
    rw [husedb] at hc
    rw [used_release]
    simp only [List.mem_append, List.mem_cons] at hc ⊢
    rcases hc with hc | rfl | hc
    · exact .inl hc
    · exact absurd rfl hcb
    · exact .inr hc
  refine ⟨?_, fun a ha => ?_⟩
  · have hperm := ht.ptrs.filter fun p => decide (some p ≠ some (payload b))
    have hrest : ((used (pre ++ b :: post)).map payload).filter
        (fun p => decide (some p ≠ some (payload b))) =
        (used (release headerSize pre b post)).map payload := by
      have hall : ∀ bs, (∀ c ∈ bs, c ∈ pre ++ post) →
          ((used bs).map payload).filter (fun p => decide (some p ≠ some (payload b))) =
            (used bs).map payload := by
        intro bs hbs
        refine List.filter_eq_self.mpr fun p hp => ?_
        obtain ⟨c, hc, rfl⟩ := List.mem_map.mp hp
        simpa using hne c (hbs c (mem_used.mp hc).1)
      rw [husedb, used_release, List.map_append, List.map_append, List.filter_append,
        List.map_cons, List.filter_cons_of_neg (by simp), hall pre fun c hc => by simp [hc],
        hall post fun c hc => by simp [hc]]
    rw [hrest, List.filter_map] at hperm
    exact hperm
  · obtain ⟨ha, hap⟩ := List.mem_filter.mp ha
    obtain ⟨c, hc, hptr, hreq⟩ := ht.room a ha
    exact ⟨c, hkeep c hc (by simpa [hptr] using hap), hptr, hreq⟩

theorem shrink_bytes (h : Heap) (blk : Nat) : (shrink h blk).bytes = h.bytes := by
  unfold shrink
  split
  · split <;> rfl
  · rfl

theorem ifree_bytes (t : Target) (h : Heap) (p : Ptr) : (ifree t h p).bytes = h.bytes := by
  unfold ifree
  split
  · rfl
  · dsimp only
    split
    · rfl
    · exact shrink_bytes ..

-- What a call leaves alone: every block in use before it, but for the one it frees.
structure Framed (c : Call) (w w' : World) (bs bs' : List Block) : Prop where
  used : ∀ b ∈ used bs, c ≠ .ifree (some (payload b)) → b ∈ Blocks.used bs'
  live : ∀ a ∈ w.live, c ≠ .ifree (some a.ptr) → a ∈ w'.live
  bytes : ∀ b ∈ Blocks.used bs, ∀ i < b.size, w'.heap.bytes (payload b + i) =
    w.heap.bytes (payload b + i)

private theorem imalloc_tracks (hr : Represents t h bs) (hc : Canonical bs)
    (ht : Tracks live bs) {n : Nat} (hn : n ≤ t.poolSize) :
    ∃ p h' bs', imalloc t h n = some (p, h') ∧ h'.bytes = h.bytes ∧ Represents t h' bs' ∧
      Canonical bs' ∧ Tracks (grant n live p) bs' ∧ (∀ b ∈ used bs, b ∈ used bs') ∧
      ∀ a, p = some a → ∃ b ∈ used bs', payload b = a ∧ n ≤ b.size ∧ b ∉ used bs := by
  by_cases h0 : n = 0
  · exact ⟨none, h, bs, by simp [imalloc, imallocFuel, h0], rfl, hr, hc, ht, fun _ => id, by simp⟩
  · obtain ⟨p, h', bs', hcall, hbytes, -, hr', ha⟩ :=
      imalloc_represents hr (Nat.pos_of_ne_zero h0) hn
    refine ⟨p.map (· + headerSize), h', bs', hcall, hbytes, hr', ha.canonical hc, ?_⟩
    cases p with
    | none =>
        cases ha
        exact ⟨ht, fun _ => id, by simp⟩
    | some a =>
        obtain ⟨b, rfl, hsize, hused⟩ := ha.used
        have hn : n ≤ b.size := Nat.le_trans (by unfold rounded; omega) hsize
        refine ⟨ht.grant hn hused, fun c hc => hused.mem_iff.mpr (List.mem_cons_of_mem _ hc),
          fun a ha => ⟨b, hused.mem_iff.mpr List.mem_cons_self, by simpa [payload] using ha, hn,
            fun hb => ?_⟩⟩
        have hnd : (used bs').Nodup := (List.Nodup.of_map _ hr'.nodup).filter _
        exact (List.nodup_cons.mp (hused.nodup_iff.mp hnd)).1 hb

-- What one call does.
theorem Invariant.call (hr : Represents t w.heap bs) (hc : Canonical bs) (ht : Tracks w.live bs)
    {c : Call} (hallow : Allowed t w c) :
    ∃ w' bs', w.call t c = some w' ∧ Represents t w'.heap bs' ∧ Canonical bs' ∧
      Tracks w'.live bs' ∧ Framed c w w' bs bs' := by
  have hgrant : ∀ n p, ∀ a ∈ w.live, a ∈ grant n w.live p := by
    intro n p a ha
    cases p with
    | none => exact ha
    | some p => exact List.mem_cons_of_mem _ ha
  cases c with
  | imalloc size =>
      obtain ⟨p, h', bs', hcall, hbytes, hr', hc', ht', hkeep, -⟩ := imalloc_tracks hr hc ht hallow
      exact ⟨⟨h', _⟩, bs', by rw [World.call, hcall]; rfl, hr', hc', ht', fun b hb _ => hkeep b hb,
        fun a ha _ => hgrant _ _ a ha, fun b _ i _ => by rw [hbytes]⟩
  | icalloc nmemb size =>
      have hroom := t.room
      have htotal : nmemb * size % t.sizeMod = nmemb * size :=
        Nat.mod_eq_of_lt (by unfold Allowed at hallow; omega)
      obtain ⟨p, h', bs', hcall, hbytes, hr', hc', ht', hkeep, hnew⟩ :=
        imalloc_tracks hr hc ht hallow
      cases p with
      | none =>
          refine ⟨⟨h', w.live⟩, bs', ?_, hr', hc', ht', fun b hb _ => hkeep b hb,
            fun a ha _ => ha, fun b _ i _ => by rw [hbytes]⟩
          simp [World.call, icalloc, htotal, hcall, grant]
      | some a =>
          refine ⟨⟨{ h' with bytes := memset h'.bytes a (nmemb * size) },
            grant (nmemb * size) w.live (some a)⟩, bs', ?_,
            ⟨hr'.head, hr'.links, hr'.header, hr'.tiles, hr'.sizes, hr'.top⟩, hc', ht',
            fun b hb _ => hkeep b hb, fun x hx _ => List.mem_cons_of_mem _ hx, fun b hb i hi => ?_⟩
          · simp [World.call, icalloc, htotal, hcall]
          · obtain ⟨d, hd, rfl, hsize, hfresh⟩ := hnew a rfl
            have hbd : b ≠ d := fun heq => hfresh (heq ▸ hb)
            have hapart := hr'.tiles.apart (mem_used.mp (hkeep b hb)).1 (mem_used.mp hd).1 hbd
            dsimp only
            rw [memset, if_neg (by unfold payload; omega), hbytes]
  | ifree ptr =>
      cases ptr with
      | none =>
          refine ⟨⟨w.heap, _⟩, bs, rfl, hr, hc, ?_, fun b hb _ => hb,
            fun a ha _ => by simpa using ha,
            fun _ _ _ _ => rfl⟩
          simpa using ht
      | some p =>
          have hp := ht.ptrs.mem_iff.mp hallow
          obtain ⟨b, hb, rfl⟩ := List.mem_map.mp hp
          obtain ⟨hb, hused⟩ := mem_used.mp hb
          obtain ⟨pre, post, rfl⟩ := List.append_of_mem hb
          refine ⟨⟨ifree t w.heap (some (payload b)), _⟩, _, rfl, ifree_represents hr, hc.release,
            ht.drop hr hused, fun c hc hcb => ?_, fun a ha hab => ?_, fun _ _ _ _ => by
              dsimp only
              rw [ifree_bytes]⟩
          · rw [used_release]
            simp only [used, List.filter_append, List.filter_cons, hused, List.mem_append] at hc ⊢
            rcases hc with hc | hc
            · exact .inl hc
            · rcases List.mem_cons.mp hc with rfl | hc
              · exact absurd rfl hcb
              · exact .inr hc
          · refine List.mem_filter.mpr ⟨ha, ?_⟩
            exact decide_eq_true fun heq => hab (congrArg _ heq.symm)

theorem invariant_of_reachable (hw : Reachable t w) : Invariant t w := by
  refine run_preserves (P := Invariant t) (fun w w' hw hstep => ?_) ?_ hw
  · obtain ⟨bs, hr, hc, ht⟩ := hw
    obtain ⟨c, hallow, hcall⟩ := hstep
    obtain ⟨w'', bs', hcall', hr', hc', ht', -⟩ := Invariant.call hr hc ht hallow
    obtain rfl : w'' = w' := Option.some.inj (hcall'.symm.trans hcall)
    exact ⟨bs', hr', hc', ht'⟩
  · refine ⟨[], ⟨rfl, trivial, by simp, rfl, by simp, Nat.zero_le _⟩, canonical_nil, ?_, ?_⟩
    · exact List.Perm.nil
    · simp [World.start]

theorem capacity_eq (hr : Represents t h bs) {b : Block} (hb : b ∈ bs) :
    capacity h (payload b) = b.size := by
  rw [capacity, payload, Nat.add_sub_cancel]
  exact (hr.header b hb).1

theorem wellFormed_of (hr : Represents t w.heap bs) (ht : Tracks w.live bs) :
    WellFormed t w bs := by
  refine ⟨hr.head, hr.links, hr.tiles.sorted (by decide),
    fun b hb c hc => ⟨fun h => ?_, fun h => ?_⟩,
    hr.header, hr.tiles, hr.sizes, fun a ha => ?_, ?_⟩
  · exact (hr.links.next_inverse hr.nodup (List.mem_map_of_mem hb) h).2
  · exact (hr.links.prev_inverse hr.nodup (List.mem_map_of_mem hc) h).2
  · obtain ⟨b, hb, hptr, hreq⟩ := ht.room a ha
    obtain ⟨hb, hfree⟩ := mem_used.mp hb
    rw [← hptr, capacity_eq hr hb]
    exact ⟨b, hb, rfl, hfree, hreq, hr.size_le hb⟩
  · have hpairs : ((used bs).map payload).Pairwise fun p q =>
        p + capacity w.heap p ≤ q ∨ q + capacity w.heap q ≤ p := by
      rw [List.pairwise_map]
      refine ((hr.tiles.pairwise).filter _).imp_of_mem fun {b c} hb hc hbc => ?_
      rw [capacity_eq hr (mem_used.mp hb).1]
      unfold payload
      omega
    have hlive := (ht.ptrs.pairwise_iff fun h => h.symm).mpr hpairs
    rwa [List.pairwise_map] at hlive

-- After every run the heap is well formed, and whatever call comes next returns and leaves
-- every other live allocation in place, in use and with its contents.
theorem reachable_wellFormed (t : Target) (w : World) (hw : Reachable t w) :
    (∃ bs, WellFormed t w bs) ∧
      ∀ c, Allowed t w c → ∃ w', w.call t c = some w' ∧ (∃ bs, WellFormed t w' bs) ∧
        ∀ a ∈ w.live, c ≠ .ifree (some a.ptr) → a ∈ w'.live ∧
          capacity w'.heap a.ptr = capacity w.heap a.ptr ∧
          (w'.heap.mem (a.ptr - headerSize)).isFree = 0 ∧
          ∀ i < capacity w.heap a.ptr,
            w'.heap.bytes (a.ptr + i) = w.heap.bytes (a.ptr + i) := by
  obtain ⟨bs, hr, hc, ht⟩ := invariant_of_reachable hw
  refine ⟨⟨bs, wellFormed_of hr ht⟩, fun c hallow => ?_⟩
  obtain ⟨w', bs', hcall, hr', hc', ht', hframe⟩ := Invariant.call hr hc ht hallow
  refine ⟨w', hcall, ⟨bs', wellFormed_of hr' ht'⟩, fun a ha hca => ⟨hframe.live a ha hca, ?_⟩⟩
  obtain ⟨b, hb, hptr, -⟩ := ht.room a ha
  rw [← hptr] at hca ⊢
  obtain ⟨hb', hfree⟩ := mem_used.mp (hframe.used b hb hca)
  rw [capacity_eq hr' hb', capacity_eq hr (mem_used.mp hb).1, payload, Nat.add_sub_cancel]
  exact ⟨rfl, by rw [(hr'.header b hb').2.2, hfree]; rfl, hframe.bytes b hb⟩

-- The world after one request of ten bytes.
def started : World :=
  ⟨{ emptyHeap with
      offset := 64, head := some 0,
      mem := modify emptyHeap.mem 0 fun _ => ⟨16, 0, heapMagic, none, none⟩ },
    [⟨48, 10⟩]⟩

theorem reachable_started : Reachable hosted started :=
  ReflTransGen.single ⟨.imalloc 10, by decide, rfl⟩

theorem reachable_wellFormed_started : (∃ bs, WellFormed hosted started bs) ∧
    ∃ w', started.call hosted (.ifree (some 48)) = some w' ∧ ∃ bs, WellFormed hosted w' bs := by
  have hw := reachable_wellFormed hosted started reachable_started
  obtain ⟨w', hcall, hwf, -⟩ := hw.2 (.ifree (some 48)) (by decide)
  exact ⟨hw.1, w', hcall, hwf⟩

theorem nodup_payload (hr : Represents t h bs) : ((used bs).map payload).Nodup := by
  rw [List.Nodup, List.pairwise_map]
  exact (hr.tiles.pairwise.filter _).imp fun hbc => by unfold payload headerSize at *; omega

theorem Tracks.live_nil (ht : Tracks [] bs) (hc : Canonical bs) : bs = [] := by
  refine hc.eq_nil ?_
  simpa using ht.ptrs.length_eq.symm

-- On a heap without blocks a request is served as on the initial one.
theorem imalloc_of_empty (t : Target) {h : Heap} (hhead : h.head = none) (hoff : h.offset = 0)
    (n : Nat) :
    (imalloc t h n).map Prod.fst = (imalloc t emptyHeap n).map Prod.fst := by
  have hfst : ∀ h : Heap, h.head = none → h.offset = 0 → (imalloc t h n).map Prod.fst =
      if n = 0 ∨ t.poolSize < t.add 0 (t.align (t.add headerSize (t.align n))) then some none
      else some (some headerSize) := by
    intro h hhead hoff
    by_cases hn : n = 0
    · simp [imalloc, imallocFuel, hn]
    · by_cases hfull : t.poolSize < t.add 0 (t.align (t.add headerSize (t.align n))) <;>
        simp [imalloc, imallocFuel, bump, findFit, hn, hhead, hoff, hfull]
  rw [hfst h hhead hoff, hfst emptyHeap rfl rfl]

theorem icalloc_of_empty (t : Target) {h : Heap} (hhead : h.head = none) (hoff : h.offset = 0)
    (m n : Nat) :
    (icalloc t h m n).map Prod.fst = (icalloc t emptyHeap m n).map Prod.fst := by
  have hfst : ∀ h, (icalloc t h m n).map Prod.fst =
      (imalloc t h (m * n % t.sizeMod)).map Prod.fst := by
    intro h
    cases hr : imalloc t h (m * n % t.sizeMod) with
    | none => simp [icalloc, hr]
    | some r =>
        obtain ⟨p, h'⟩ := r
        cases p <;> simp [icalloc, hr]
  rw [hfst, hfst, imalloc_of_empty t hhead hoff]

theorem empty_of_live (hw : Reachable t w) (hlive : w.live = []) :
    w.heap.head = none ∧ w.heap.offset = 0 := by
  obtain ⟨bs, hr, hc, ht⟩ := invariant_of_reachable hw
  obtain rfl := (hlive ▸ ht).live_nil hc
  exact ⟨hr.head, hr.tiles.symm⟩

def freeAll (t : Target) (w : World) (order : List Nat) : Option World :=
  order.foldlM (fun w p => w.call t (.ifree (some p))) w

theorem freeAll_reachable (hw : Reachable t w) (order : List Nat)
    (horder : order.Perm (w.live.map Allocation.ptr)) :
    ∃ w', freeAll t w order = some w' ∧ Reachable t w' ∧ w'.live = [] := by
  induction order generalizing w with
  | nil => exact ⟨w, rfl, hw, by simpa using horder.symm⟩
  | cons p order ih =>
      obtain ⟨bs, hr, -, ht⟩ := invariant_of_reachable hw
      have hallow : Allowed t w (.ifree (some p)) := horder.mem_iff.mp List.mem_cons_self
      have hnd : (p :: order).Nodup := by
        rw [horder.nodup_iff, ht.ptrs.nodup_iff]
        exact nodup_payload hr
      obtain ⟨w', hw'⟩ : ∃ w', w.call t (.ifree (some p)) = some w' := ⟨_, rfl⟩
      have horder' : order.Perm (w'.live.map Allocation.ptr) := by
        obtain rfl := Option.some.inj hw'
        have hrest := horder.filter fun q => decide (some q ≠ some p)
        have hkeep : order.filter (fun q => decide (some q ≠ some p)) = order :=
          List.filter_eq_self.mpr fun q hq => decide_eq_true fun heq =>
            (List.nodup_cons.mp hnd).1 (Option.some.inj heq ▸ hq)
        rw [List.filter_cons_of_neg (by simp), hkeep, List.filter_map] at hrest
        exact hrest
      obtain ⟨w'', hrest, hreach, hlive⟩ := ih (hw.tail ⟨_, hallow, hw'⟩) horder'
      exact ⟨w'', by simpa [freeAll, hw'] using hrest, hreach, hlive⟩

-- The heap stays canonical, and freeing the live allocations in any order empties it.
theorem reachable_reclaims (t : Target) (w : World) (hw : Reachable t w) :
    (∃ bs, WellFormed t w bs ∧ Canonical bs) ∧
      (w.live = [] → w.heap.head = none ∧ w.heap.offset = 0) ∧
      ∀ order : List Nat, order.Perm (w.live.map Allocation.ptr) →
        ∃ w', freeAll t w order = some w' ∧ w'.live = [] ∧ w'.heap.head = none ∧
          w'.heap.offset = 0 ∧
          (∀ n, (imalloc t w'.heap n).map Prod.fst = (imalloc t emptyHeap n).map Prod.fst) ∧
          ∀ m n, (icalloc t w'.heap m n).map Prod.fst = (icalloc t emptyHeap m n).map Prod.fst := by
  obtain ⟨bs, hr, hc, ht⟩ := invariant_of_reachable hw
  refine ⟨⟨bs, wellFormed_of hr ht, hc⟩, empty_of_live hw, fun order horder => ?_⟩
  obtain ⟨w', hfree, hreach, hlive⟩ := freeAll_reachable hw order horder
  obtain ⟨hhead, hoff⟩ := empty_of_live hreach hlive
  exact ⟨w', hfree, hlive, hhead, hoff, imalloc_of_empty t hhead hoff,
    icalloc_of_empty t hhead hoff⟩

theorem reachable_reclaims_started :
    ∃ w', freeAll hosted started [48] = some w' ∧ w'.heap.head = none ∧ w'.heap.offset = 0 := by
  obtain ⟨w', hfree, -, hhead, hoff, -⟩ :=
    (reachable_reclaims hosted started reachable_started).2.2 [48] (by decide)
  exact ⟨w', hfree, hhead, hoff⟩

end BTron.Libstr
