import BTron.FsRecord.Records
import BTron.Lib.Run

namespace BTron.FsRecord

open Lib

-- The tables with the byte a `wr_rec` wrote last at each position since the position was last
-- outside its record, if there is one.
structure Tracked where
  fs : Fs
  latest : Nat → Nat → Nat → Option UB

def Tracked.tables (x : Tracked) : Fs := fsInitOnce x.fs

-- The byte an operation writes at position `k` of the record `(i, r)`.
def wroteAt (s : Fs) (op : Op) (i r k : Nat) : Option UB :=
  match op.write s with
  | none => none
  | some (o, n, buf) =>
    if slot o.fd = i ∧ o.recIdx.toNat = r ∧ o.offset.toNat ≤ k ∧ k < o.offset.toNat + n.toNat then
      some (buf (k - o.offset.toNat))
    else none

def Tracked.next (x : Tracked) (op : Op) : Tracked where
  fs := (op.exec x.fs).1
  latest i r k :=
    if (k : Int) < ((fsInitOnce (op.exec x.fs).1).record i r).size then
      (wroteAt x.tables op i r k).or (x.latest i r k)
    else none

-- The text fs_init_once puts into /sys/startup.tad counts as written.
def Tracked.start : Tracked :=
  ⟨.start, fun i r k => if i = 0 ∧ r = 0 then startupText[k]? else none⟩

def TrackedStep (x : Tracked) (op : Op) (x' : Tracked) : Prop := x.next op = x'

-- The bytes of the records are the bytes written last.
structure Covered (x : Tracked) : Prop where
  inside : ∀ i r (k : Nat), k < (x.tables.record i r).size →
    x.latest i r k = some ((x.tables.record i r).data k)
  outside : ∀ i r (k : Nat), (x.tables.record i r).size ≤ k → x.latest i r k = none

-- Every byte a `rd_rec` returns is the byte written last at its position.
def ReadsLatest (x : Tracked) : Prop :=
  ∀ recId buf sz j b, (rdRec x.fs recId buf sz).2.2[j]? = some b →
    x.latest (slot (x.fs.openRecs (slot recId)).fd) (x.fs.openRecs (slot recId)).recIdx.toNat
      ((x.fs.openRecs (slot recId)).offset.toNat + j) = some b

-- The operations that make no record longer but by the bytes they write.
structure InPlace (s : Fs) (op : Op) : Prop where
  write : ∀ o n buf, op.write s = some (o, n, buf) → o.offset ≤ (o.target s).size
  resize : ∀ o sz, op.resize s = some (o, sz) → sz ≤ (o.target s).size

theorem bounded_exec {s : Fs} (h : Bounded (fsInitOnce s)) (op : Op) :
    Bounded (fsInitOnce (op.exec s).1) := by
  have hset : ∀ {i r data size}, RecSet (fsInitOnce s) (fsInitOnce (op.exec s).1) i r data size →
      0 ≤ size → size ≤ maxRecordSize → ∀ j q, 0 ≤ ((fsInitOnce (op.exec s).1).record j q).size ∧
        ((fsInitOnce (op.exec s).1).record j q).size ≤ maxRecordSize := by
    intro i r data size hrec h0 hmax j q
    rw [(hrec j q).2]
    split
    · exact ⟨h0, hmax⟩
    · exact h.size j q
  have hsize : ∀ j q, 0 ≤ ((fsInitOnce (op.exec s).1).record j q).size ∧
      ((fsInitOnce (op.exec s).1).record j q).size ≤ maxRecordSize := by
    cases rec_effect s op with
    | same _ _ hsame =>
        intro j q
        rw [(hsame j q).2]
        exact h.size j q
    | clear _ _ hrec => exact hset hrec (Int.le_refl 0) (by decide)
    | @write o n buf _ _ _ _ _ hpos hle hrec =>
        have htarget := h.size (slot o.fd) o.recIdx.toNat
        rw [← OpenRec.target_eq] at htarget
        apply hset hrec <;> split <;> omega
    | resize _ _ _ _ h0 hmax hrec => exact hset hrec h0 hmax
  refine ⟨hsize, fun k => ?_⟩
  cases handle_effect s op with
  | same heq =>
      rw [heq]
      exact h.offset k
  | @move i pos _ heq hpos =>
      rw [heq]
      by_cases hk : k = i
      · subst hk
        simpa using hpos h
      · simpa [hk] using h.offset k
  | @opened fd recIdx mode i _ _ _ heq =>
      rw [heq]
      by_cases hk : k = i
      · subst hk
        simp [maxRecordSize]
      · simpa [hk] using h.offset k
  | @closed i heq =>
      rw [heq]
      by_cases hk : k = i
      · subst hk
        simpa using h.offset k
      · simpa [hk] using h.offset k

@[simp] theorem tables_next (x : Tracked) (op : Op) :
    (x.next op).tables = fsInitOnce (op.exec x.fs).1 := rfl

theorem latest_inside {x : Tracked} {op : Op} {i r k : Nat}
    (h : k < ((fsInitOnce (op.exec x.fs).1).record i r).size) :
    (x.next op).latest i r k = (wroteAt x.tables op i r k).or (x.latest i r k) := if_pos h

theorem latest_outside {x : Tracked} {op : Op} {i r k : Nat}
    (h : ((fsInitOnce (op.exec x.fs).1).record i r).size ≤ k) : (x.next op).latest i r k = none :=
  if_neg (Int.not_lt.mpr h)

-- Positions are covered after an operation when those that are inside then are.
theorem covered_next {x : Tracked} {op : Op}
    (h : ∀ i r (k : Nat), k < ((fsInitOnce (op.exec x.fs).1).record i r).size →
      (wroteAt x.tables op i r k).or (x.latest i r k) =
        some (((fsInitOnce (op.exec x.fs).1).record i r).data k)) : Covered (x.next op) :=
  ⟨fun i r k hk => (latest_inside hk).trans (h i r k hk), fun _ _ _ hk => latest_outside hk⟩

theorem wroteAt_none {s : Fs} {op : Op} (h : op.write s = none) (i r k : Nat) :
    wroteAt s op i r k = none := by
  simp only [wroteAt, h]

theorem covered_of_same {x : Tracked} {op : Op} (h : Covered x) (hwrite : op.write x.tables = none)
    (hsame : SameRecs x.tables (fsInitOnce (op.exec x.fs).1)) : Covered (x.next op) := by
  apply covered_next
  intro i r k hk
  rw [(hsame i r).2] at hk
  rw [wroteAt_none hwrite, Option.none_or, (hsame i r).1, h.inside i r k hk]

-- A new size exposes nothing but what was there if and only if it is not larger.
theorem covered_resize_iff {x : Tracked} {op : Op} {i r : Nat} {size : Int} (h : Covered x)
    (hbound : 0 ≤ (x.tables.record i r).size) (hwrite : op.write x.tables = none)
    (hrec : RecSet x.tables (fsInitOnce (op.exec x.fs).1) i r (x.tables.record i r).data size) :
    Covered (x.next op) ↔ size ≤ (x.tables.record i r).size := by
  have hself : ((fsInitOnce (op.exec x.fs).1).record i r).size = size := by
    rw [(hrec i r).2, if_pos ⟨rfl, rfl⟩]
  constructor
  · intro hcov
    by_contra hgrow
    -- the first exposed position was outside, so nothing was written there
    have hk : ((x.tables.record i r).size.toNat : Int) <
        ((fsInitOnce (op.exec x.fs).1).record i r).size := by
      rw [hself]
      omega
    have hin := hcov.inside i r _ hk
    rw [latest_inside hk, wroteAt_none hwrite, Option.none_or,
      h.outside i r _ (by omega)] at hin
    cases hin
  · intro hle
    apply covered_next
    intro j q k hk
    have hdata : ((fsInitOnce (op.exec x.fs).1).record j q).data = (x.tables.record j q).data := by
      rw [(hrec j q).1]
      split
      · rename_i heq
        rw [heq.1, heq.2]
      · rfl
    have hsize : ((fsInitOnce (op.exec x.fs).1).record j q).size ≤ (x.tables.record j q).size := by
      rw [(hrec j q).2]
      split
      · rename_i heq
        rwa [heq.1, heq.2]
      · exact Int.le_refl _
    rw [wroteAt_none hwrite, Option.none_or, hdata, h.inside j q k (by omega)]

theorem inPlace_of_none {s : Fs} {op : Op} (hwrite : op.write s = none)
    (hresize : op.resize s = none) : InPlace s op := by
  constructor
  · intro o n buf h
    simp [hwrite] at h
  · intro o sz h
    simp [hresize] at h

-- A write leaves no gap if and only if it starts inside the record or at its end.
theorem covered_write_iff {x : Tracked} {op : Op} {o : OpenRec} {n : Int} {buf : Memory}
    (h : Covered x) (hbound : 0 ≤ (o.target x.tables).size) (h0 : 0 ≤ o.offset) (hpos : 0 < n)
    (hwrite : op.write x.tables = some (o, n, buf))
    (hrec : RecSet x.tables (fsInitOnce (op.exec x.fs).1) (slot o.fd) o.recIdx.toNat
      (overwrite (o.target x.tables).data o.offset.toNat n.toNat buf)
      (if o.offset + n > (o.target x.tables).size then o.offset + n
        else (o.target x.tables).size)) :
    Covered (x.next op) ↔ o.offset ≤ (o.target x.tables).size := by
  have hself := (hrec (slot o.fd) o.recIdx.toNat).2
  rw [if_pos ⟨rfl, rfl⟩] at hself
  have hwrote : ∀ i r k, wroteAt x.tables op i r k =
      if slot o.fd = i ∧ o.recIdx.toNat = r ∧ o.offset.toNat ≤ k ∧
        k < o.offset.toNat + n.toNat then some (buf (k - o.offset.toNat)) else none := by
    intro i r k
    simp only [wroteAt, hwrite]
  constructor
  · intro hcov
    by_contra hgap
    -- the first position of the gap was outside, and the write begins behind it
    have hk : ((o.target x.tables).size.toNat : Int) <
        ((fsInitOnce (op.exec x.fs).1).record (slot o.fd) o.recIdx.toNat).size := by
      rw [hself]
      split <;> omega
    have hin := hcov.inside _ _ _ hk
    rw [latest_inside hk, hwrote, if_neg (by omega), Option.none_or,
      h.outside _ _ _ (by rw [← OpenRec.target_eq]; omega)] at hin
    cases hin
  · intro hle
    apply covered_next
    intro j q k hk
    by_cases heq : j = slot o.fd ∧ q = o.recIdx.toNat
    · obtain ⟨rfl, rfl⟩ := heq
      have hdata := (hrec (slot o.fd) o.recIdx.toNat).1
      rw [if_pos ⟨rfl, rfl⟩] at hdata
      rw [hself] at hk
      rw [hdata, hwrote]
      simp only [overwrite, true_and]
      by_cases hin : o.offset.toNat ≤ k ∧ k < o.offset.toNat + n.toNat
      · rw [if_pos hin, if_pos hin, Option.some_or]
      · have hold : (k : Int) < (o.target x.tables).size := by
          split at hk <;> omega
        rw [if_neg hin, if_neg hin, Option.none_or, h.inside _ _ k hold, OpenRec.target_eq]
    · rw [(hrec j q).2, if_neg heq] at hk
      rw [(hrec j q).1, if_neg heq, hwrote, if_neg fun h => heq ⟨h.1.symm, h.2.1.symm⟩,
        Option.none_or, h.inside j q k hk]

theorem covered_next_iff {x : Tracked} (hb : Bounded x.tables) (h : Covered x) (op : Op) :
    Covered (x.next op) ↔ InPlace x.tables op := by
  cases rec_effect x.fs op with
  | same hwrite hresize hsame =>
      exact iff_of_true (covered_of_same h hwrite hsame) (inPlace_of_none hwrite hresize)
  | @clear i r hwrite hresize hrec =>
      refine iff_of_true ?_ (inPlace_of_none hwrite hresize)
      have hsize := (hb.size i r).1
      exact (covered_resize_iff h hsize hwrite hrec).mpr hsize
  | @write o n buf i hwrite hresize ho _ hpos hle hrec =>
      have hsize := (hb.size (slot o.fd) o.recIdx.toNat).1
      have hoffset : 0 ≤ o.offset := by
        rw [ho]
        exact (hb.offset i).1
      refine (covered_write_iff h hsize hoffset hpos hwrite hrec).trans
        ⟨fun hle => ?_, fun hin => hin.write _ _ _ hwrite⟩
      refine ⟨fun o' n' buf' hwrite' => ?_, fun o' sz' hresize' => ?_⟩
      · cases hwrite.symm.trans hwrite'
        exact hle
      · cases hresize.symm.trans hresize'
  | @resize o sz _ hwrite hresize _ _ _ _ hrec =>
      have hsize := (hb.size (slot o.fd) o.recIdx.toNat).1
      refine (covered_resize_iff h hsize hwrite hrec).trans
        ⟨fun hle => ?_, fun hin => hin.resize _ _ hresize⟩
      refine ⟨fun o' n' buf' hwrite' => ?_, fun o' sz' hresize' => ?_⟩
      · cases hwrite.symm.trans hwrite'
      · cases hresize.symm.trans hresize'
        exact hle

theorem readsLatest {x : Tracked} (hs : Sealed x.fs) (hb : Bounded x.tables) (h : Covered x) :
    ReadsLatest x := by
  intro recId buf sz j b hread
  obtain ⟨htables, -, hlt, rfl⟩ := rdRec_bytes hs hb hread
  have hin := h.inside (slot (x.fs.openRecs (slot recId)).fd)
    (x.fs.openRecs (slot recId)).recIdx.toNat
    ((x.fs.openRecs (slot recId)).offset.toNat + j)
  rw [Tracked.tables, htables] at hin
  exact hin hlt

theorem record_start (i r : Nat) : (fsInitOnce .start).record i r =
    if i = 0 ∧ r = 0 then ⟨fun k => startupText.getD k 0, 12, true⟩ else .zero := by
  by_cases hi : i = 0
  · subst hi
    by_cases hr : r = 0
    · subst hr
      rfl
    · simp [fsInitOnce, Fs.start, Fs.record, startupFile, File.zero, hr]
  · simp [fsInitOnce, Fs.start, Fs.record, hi, File.zero]

theorem covered_start : Covered .start := by
  have hlen : startupText.length = 12 := rfl
  constructor
  · intro i r k hk
    rw [Tracked.tables, Tracked.start, record_start] at hk ⊢
    split_ifs at hk ⊢ with hir
    · have hk' : k < startupText.length := by
        simp only at hk
        omega
      simp [hir, hk']
    · simp only [Rec.zero] at hk
      omega
  · intro i r k hk
    rw [Tracked.tables, Tracked.start, record_start] at hk
    simp only [Tracked.start]
    split_ifs at hk ⊢ with hir
    · exact List.getElem?_eq_none (by simp only at hk; omega)
    · rfl

theorem bounded_start : Bounded (fsInitOnce .start) := by
  constructor
  · intro i r
    rw [record_start]
    split_ifs
    · decide
    · decide
  · intro h
    simp [fsInitOnce, Fs.start, OpenRec.zero, maxRecordSize]

-- In every run sizes and offsets stay in range, and the records are the streams of the bytes
-- written to them as long as no call makes one longer but by writing.
theorem record_is_a_stream (tr : List (Tracked × Op)) (x : Tracked)
    (htr : Trace TrackedStep .start tr x) :
    Bounded x.tables ∧ (Covered x → ReadsLatest x) ∧
      ((Covered x ∧ ∀ t ∈ tr, Covered t.1) ↔ ∀ t ∈ tr, InPlace t.1.tables t.2) := by
  have hstep : ∀ x op x', (Sealed x.fs ∧ Bounded x.tables) → TrackedStep x op x' →
      Sealed x'.fs ∧ Bounded x'.tables := by
    rintro x op _ ⟨hs, hb⟩ rfl
    exact ⟨sealed_exec hs op, bounded_exec hb op⟩
  have h0 : Sealed Tracked.start.fs ∧ Bounded Tracked.start.tables :=
    ⟨fun _ _ => rfl, bounded_start⟩
  obtain ⟨hsealed, hbounded⟩ := (htr.always h0 hstep).1
  refine ⟨hbounded, readsLatest hsealed hbounded,
    htr.forall_iff_within (C := fun x op => InPlace x.tables op) h0 hstep covered_start ?_⟩
  rintro x op _ ⟨-, hb⟩ hcov rfl
  exact covered_next_iff hb hcov op

def someBytes : Memory := fun k => if k = 0 then 0x58 else 0x59

-- `X` is written over the first byte of the startup text.
theorem record_is_a_stream_overwritten :
    Covered ((Tracked.start.next (.opnRec 1 0 2)).next (.wrRec 1 (some someBytes) 1)) := by
  have htr : Trace TrackedStep .start _
      ((Tracked.start.next (.opnRec 1 0 2)).next (.wrRec 1 (some someBytes) 1)) :=
    .next (.next .start rfl) rfl
  refine ((record_is_a_stream _ _ htr).2.2.mpr ?_).1
  simp only [List.mem_cons, List.not_mem_nil, or_false, forall_eq_or_imp, forall_eq]
  refine ⟨⟨fun o n buf hwrite => ?_, fun o sz hresize => by cases hresize⟩,
    inPlace_of_none rfl rfl⟩
  have hstart : ((Op.wrRec 1 (some someBytes) 1).write
      (Tracked.start.next (.opnRec 1 0 2)).tables).map
        (fun w =>
          decide (w.1.offset ≤ (w.1.target (Tracked.start.next (.opnRec 1 0 2)).tables).size)) =
      some true := by decide
  rw [hwrite, Option.map_some, Option.some.injEq, decide_eq_true_eq] at hstart
  exact hstart

-- The startup text is cut off and comes back with the size, and a gap shows what was there.
theorem truncated_bytes_reappear :
    (rdRec (runOps .start [.opnRec 1 0 2, .trnRec 1 0, .trnRec 1 12]) 1 true 4).2.2 =
        [0x54, 0x52, 0x4f, 0x4e] ∧
      (rdRec (runOps .start [.opnRec 1 0 2, .opnRec 1 0 2, .posRec 1 4 0, .trnRec 2 0,
        .wrRec 1 (some someBytes) 1]) 2 true 5).2.2 = [0x54, 0x52, 0x4f, 0x4e, 0x58] ∧
      ∃ tr x, Trace TrackedStep .start tr x ∧ ¬ReadsLatest x := by
  refine ⟨by decide, by decide, _,
    ((Tracked.start.next (.opnRec 1 0 2)).next (.trnRec 1 0)).next (.trnRec 1 12),
    .next (.next (.next .start rfl) rfl) rfl, fun hreads => ?_⟩
  have hfirst := hreads 1 true 4 0 0x54 (by decide)
  revert hfirst
  decide

end BTron.FsRecord
