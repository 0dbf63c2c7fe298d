import BTron.Device
import BTron.Lib.Fifo
import Mathlib.Data.Fintype.Card

namespace BTron.Device

open Lib

-- The bytes in the buffer.
def Dev.contents (d : Dev) : List UB := (List.range d.bufLen.toNat).map fun (i : Nat) => d.buffer i

structure Holds (d : Dev) (q : Stream UB) : Prop where
  nonneg : 0 ≤ d.bufLen
  room : d.bufLen ≤ 1024
  valid : q.Valid
  contents_eq : d.contents = q.pending

theorem Holds.length_eq {d : Dev} {q : Stream UB} (h : Holds d q) :
    (q.pending.length : Int) = d.bufLen := by
  have hlen := congrArg List.length h.contents_eq
  rw [Dev.contents, List.length_map, List.length_range] at hlen
  have hnonneg := h.nonneg
  omega

theorem holds_empty {d : Dev} (hlen : d.bufLen = 0) : Holds d .empty := by
  refine ⟨by omega, by omega, Stream.valid_empty, ?_⟩
  rw [Dev.contents, hlen]
  rfl

theorem contents_getElem (d : Dev) {i : Nat} (hi : i < d.contents.length) :
    d.contents[i] = d.buffer i := by
  simp [Dev.contents]

theorem contents_length (d : Dev) : d.contents.length = d.bufLen.toNat := by
  rw [Dev.contents, List.length_map, List.length_range]

-- A read takes the first bytes and moves the others to the front.
theorem read_spec {d : Dev} {q : Stream UB} (h : Holds d q) {sz : Int} (hsz : 0 ≤ sz) :
    ∃ d', d.read sz =
        some (d', q.pending.take sz.toNat, ((q.pending.take sz.toNat).length : Int)) ∧
      Holds d' (q.take sz.toNat) ∧ d'.devId = d.devId ∧ d'.isOpen = d.isOpen := by
  have hnonneg := h.nonneg
  have hroom := h.room
  have hlen := h.length_eq
  have hsize : (if sz < d.bufLen then sz else d.bufLen) =
      ((q.pending.take sz.toNat).length : Int) := by
    rw [List.length_take]
    split <;> omega
  have hpending := h.valid.pending_take sz.toNat
  rw [Dev.read]
  simp only [hsize]
  generalize hn : (q.pending.take sz.toNat).length = n
  have hle : n ≤ q.pending.length := by
    rw [← hn, List.length_take]
    omega
  have htake : q.pending.take sz.toNat = q.pending.take n := by
    rw [← hn, List.length_take, List.take_eq_take_iff]
    omega
  have hdrop : q.pending.drop sz.toNat = q.pending.drop n := by
    rw [← hn, List.length_take, List.drop_eq_drop_iff]
    omega
  by_cases hpos : (n : Int) > 0
  · have hbytes : (List.range (n : Int).toNat).map (fun (i : Nat) => d.buffer i) =
        q.pending.take n := by
      rw [← h.contents_eq, Dev.contents, ← List.map_take, List.take_range, Int.toNat_natCast,
        Nat.min_eq_left (by omega)]
    have hq : q.take sz.toNat = q.take n := by rw [Stream.take, Stream.take, htake]
    rw [if_pos hpos, CArray.memmove, if_pos (by omega), hbytes, htake, hq]
    refine ⟨_, rfl, ⟨by simp only; omega, by simp only; omega, h.valid.take n, ?_⟩, rfl, rfl⟩
    rw [h.valid.pending_take, ← h.contents_eq]
    apply List.ext_getElem
    · rw [contents_length, List.length_drop, contents_length]
      simp only
      omega
    · intro i hi hi'
      rw [contents_length] at hi
      rw [contents_getElem, List.getElem_drop, contents_getElem]
      simp only at hi ⊢
      rw [if_pos (by omega)]
      congr 1
      omega
  · have hzero : n = 0 := by omega
    subst hzero
    rw [if_neg hpos, htake]
    refine ⟨d, rfl, ⟨hnonneg, hroom, h.valid.take _, ?_⟩, rfl, rfl⟩
    rw [hpending, hdrop, h.contents_eq]
    rfl

theorem write_spec {d : Dev} {q : Stream UB} (h : Holds d q) (buf : Memory) {sz : Int}
    (hsz : 0 ≤ sz) :
    ∃ d', d.write buf sz = some (d', ((min sz.toNat (1024 - q.pending.length) : Nat) : Int)) ∧
      Holds d' (q.put ((List.range (min sz.toNat (1024 - q.pending.length))).map buf)) ∧
      d'.devId = d.devId ∧ d'.isOpen = d.isOpen := by
  have hnonneg := h.nonneg
  have hroom := h.room
  have hlen := h.length_eq
  have hsize : (if sz < 1024 - d.bufLen then sz else 1024 - d.bufLen) =
      ((min sz.toNat (1024 - q.pending.length) : Nat) : Int) := by
    split <;> omega
  have hfit : min sz.toNat (1024 - q.pending.length) ≤ 1024 - q.pending.length :=
    Nat.min_le_right _ _
  rw [Dev.write]
  simp only [hsize]
  generalize min sz.toNat (1024 - q.pending.length) = n at hfit
  by_cases hpos : (n : Int) > 0
  · rw [if_pos hpos, CArray.memcpy, if_pos (by simp; omega)]
    refine ⟨_, rfl, ⟨by simp only; omega, by simp only; omega, h.valid.put _, ?_⟩, rfl, rfl⟩
    rw [h.valid.pending_put, ← h.contents_eq]
    apply List.ext_getElem
    · rw [contents_length, List.length_append, contents_length]
      simp only [List.length_map, List.length_range]
      omega
    · intro i hi hi'
      rw [contents_length] at hi
      simp only at hi
      rw [contents_getElem, List.getElem_append]
      simp only [List.length_map, List.length_range, Int.toNat_natCast]
      by_cases hold : i < d.contents.length
      · rw [dif_pos hold, contents_getElem, if_neg]
        rw [contents_length] at hold
        omega
      · rw [contents_length] at hold
        rw [dif_neg (by rw [contents_length]; exact hold), if_pos (by omega), List.getElem_map,
          List.getElem_range, contents_length, List.getD_eq_getElem?_getD, List.getElem?_map,
          List.getElem?_range (by omega)]
        simp only [Option.map_some, Option.getD_some]
        congr 1
        omega
  · have hzero : n = 0 := by omega
    subst hzero
    rw [if_neg hpos]
    refine ⟨d, rfl, ⟨hnonneg, hroom, h.valid.put _, ?_⟩, rfl, rfl⟩
    rw [h.valid.pending_put, h.contents_eq, List.range_zero, List.map_nil, List.append_nil]

-- What the devices are for: one stream for each open id.
structure Streams where
  next : Int
  count : Nat
  streams : Int → Option (Stream UB)

def Streams.start : Streams := ⟨1, 0, fun _ => none⟩

def Streams.set (q : Streams) (id : Int) (st : Option (Stream UB)) : Streams :=
  { q with streams := Function.update q.streams id st }

namespace Spec

def opn (q : Streams) (devName : Option (List UB)) : Option (Streams × Int) :=
  match devName with
  | none => some (q, ER_PAR)
  | some _ =>
    if q.count = maxDevices then some (q, ER_NOSPC)
    else if q.next ≥ 2147483647 then none
    else some ({ q.set q.next (some .empty) with next := q.next + 1, count := q.count + 1 }, q.next)

def cls (q : Streams) (id : Int) : Streams × ER :=
  match q.streams id with
  | none => (q, ER_DID)
  | some _ => ({ q.set id none with count := q.count - 1 }, E_OK)

def rea (q : Streams) (id : Int) (out : Bool) (sz : Int) : Streams × Result :=
  if !out ∨ sz < 0 then (q, .ofER ER_PAR)
  else
    match q.streams id with
    | none => (q, .ofER ER_DID)
    | some st =>
      let bytes := st.pending.take sz.toNat
      (q.set id (some (st.take sz.toNat)), ⟨E_OK, bytes, some bytes.length⟩)

def wri (q : Streams) (id : Int) (buf : Option Memory) (sz : Int) : Streams × Result :=
  match buf with
  | none => (q, .ofER ER_PAR)
  | some buf =>
    if sz < 0 then (q, .ofER ER_PAR)
    else
      match q.streams id with
      | none => (q, .ofER ER_DID)
      | some st =>
        let accepted := min sz.toNat (1024 - st.pending.length)
        (q.set id (some (st.put ((List.range accepted).map buf))),
          ⟨E_OK, [], some (accepted : Int)⟩)

def ctl (q : Streams) (id cmd : Int) : Streams × ER :=
  match q.streams id with
  | none => (q, ER_DID)
  | some _ =>
    (if cmd = DEV_CMD_FLUSH ∨ cmd = DEV_CMD_RESET then q.set id (some .empty) else q, E_OK)

def exec (q : Streams) : Call → Option (Streams × Result)
  | .opn devName _ => (opn q devName).map fun r => (r.1, .ofER r.2)
  | .cls id =>
    let (q, er) := cls q id
    some (q, .ofER er)
  | .rea id out sz => some (rea q id out sz)
  | .wri id buf sz => some (wri q id buf sz)
  | .ctl id cmd =>
    let (q, er) := ctl q id cmd
    some (q, .ofER er)

def run (q : Streams) : List Call → Option (Streams × List Result)
  | [] => some (q, [])
  | c :: cs => do
    let (q', r) ← exec q c
    let (q'', rs) ← run q' cs
    some (q'', r :: rs)

end Spec

def openSlots (devs : Fin maxDevices → Dev) : Finset (Fin maxDevices) :=
  Finset.univ.filter fun i => (devs i).isOpen = true

theorem mem_openSlots {devs : Fin maxDevices → Dev} {i : Fin maxDevices} :
    i ∈ openSlots devs ↔ (devs i).isOpen = true := by
  rw [openSlots, Finset.mem_filter, and_iff_right (Finset.mem_univ i)]

theorem openSlots_open {devs : Fin maxDevices → Dev} {i : Fin maxDevices} {d : Dev}
    (hd : d.isOpen = true) : openSlots (Function.update devs i d) = insert i (openSlots devs) := by
  ext j
  rw [Finset.mem_insert, mem_openSlots, mem_openSlots]
  by_cases hj : j = i
  · subst hj
    rw [Function.update_self]
    exact iff_of_true hd (Or.inl rfl)
  · rw [Function.update_of_ne hj]
    exact (or_iff_right hj).symm

theorem openSlots_closed {devs : Fin maxDevices → Dev} {i : Fin maxDevices} {d : Dev}
    (hd : d.isOpen = false) :
    openSlots (Function.update devs i d) = (openSlots devs).erase i := by
  ext j
  rw [Finset.mem_erase, mem_openSlots, mem_openSlots]
  by_cases hj : j = i
  · subst hj
    rw [Function.update_self, hd]
    exact iff_of_false Bool.false_ne_true fun h => h.1 rfl
  · rw [Function.update_of_ne hj]
    exact (and_iff_right hj).symm

-- The open slots have different ids, and hold the streams of the open ids.
structure Table (devs : Fin maxDevices → Dev) (streams : Int → Option (Stream UB)) (next : Int) :
    Prop where
  slots : ∀ i, (devs i).isOpen = true →
    ∃ st, streams (devs i).devId = some st ∧ Holds (devs i) st
  ids : ∀ id st, streams id = some st → ∃ i, (devs i).isOpen = true ∧ (devs i).devId = id
  below : ∀ i, (devs i).isOpen = true → 0 < (devs i).devId ∧ (devs i).devId < next
  distinct : ∀ i j, (devs i).isOpen = true → (devs j).isOpen = true →
    (devs i).devId = (devs j).devId → i = j

structure Refines (s : Devs) (q : Streams) : Prop where
  fresh : s.init = false → s.devs = fun _ => .zero
  next_eq : s.nextDevId = q.next
  next_pos : 0 < q.next
  table : Table s.devs q.streams q.next
  count_eq : q.count = (openSlots s.devs).card

theorem refines_start : Refines .start .start where
  fresh := fun _ => rfl
  next_eq := rfl
  next_pos := by decide
  table := by
    constructor
    · intro i h
      cases h
    · intro id st h
      cases h
    · intro i h
      cases h
    · intro i j h
      cases h
  count_eq := by decide

theorem devs_initOnce {s : Devs} {q : Streams} (h : Refines s q) :
    (devInitOnce s).devs = s.devs ∧ (devInitOnce s).nextDevId = s.nextDevId := by
  unfold devInitOnce
  split
  · exact ⟨rfl, rfl⟩
  · rename_i hinit
    rw [Bool.not_eq_true] at hinit
    exact ⟨(h.fresh hinit).symm, rfl⟩

theorem refines_initOnce {s : Devs} {q : Streams} (h : Refines s q) :
    Refines (devInitOnce s) q ∧ (devInitOnce s).init = true := by
  obtain ⟨hdevs, hnext⟩ := devs_initOnce h
  have hinit : (devInitOnce s).init = true := by
    unfold devInitOnce
    split
    · assumption
    · rfl
  refine ⟨⟨fun hnot => ?_, hnext.trans h.next_eq, h.next_pos, ?_, ?_⟩, hinit⟩
  · rw [hinit] at hnot
    cases hnot
  · rw [hdevs]
    exact h.table
  · rw [hdevs]
    exact h.count_eq

-- The search finds the slot of an open id, and nothing for any other.
theorem find_cases {s : Devs} {q : Streams} (h : Refines s q) (id : Int) :
    findDev s id = none ∧ q.streams id = none ∨
      ∃ i st, findDev s id = some i ∧ (s.devs i).isOpen = true ∧ (s.devs i).devId = id ∧
        q.streams id = some st ∧ Holds (s.devs i) st := by
  cases hfind : findDev s id with
  | none =>
      left
      refine ⟨rfl, ?_⟩
      rw [Option.eq_none_iff_forall_ne_some]
      intro st hst
      obtain ⟨i, hopen, hid⟩ := h.table.ids id st hst
      have hnot := Fin.eq_false_of_find?_eq_none hfind i
      rw [hopen, hid, beq_self_eq_true] at hnot
      cases hnot
  | some i =>
      right
      have hi := Fin.eq_true_of_find?_eq_some hfind
      rw [Bool.and_eq_true, beq_iff_eq] at hi
      obtain ⟨st, hst, hholds⟩ := h.table.slots i hi.1
      rw [hi.2] at hst
      exact ⟨i, st, rfl, hi.1, hi.2, hst, hholds⟩

theorem streams_of_nonpos {s : Devs} {q : Streams} (h : Refines s q) {id : Int} (hid : id ≤ 0) :
    q.streams id = none := by
  rw [Option.eq_none_iff_forall_ne_some]
  intro st hst
  obtain ⟨i, hopen, rfl⟩ := h.table.ids id st hst
  have hpos := (h.table.below i hopen).1
  omega

section Tables

variable {devs : Fin maxDevices → Dev} {streams : Int → Option (Stream UB)} {next : Int}
  {i : Fin maxDevices} {d : Dev}

-- A call on an open device that leaves it open.
theorem Table.set {st : Stream UB} (h : Table devs streams next) (hi : (devs i).isOpen = true)
    (hid : d.devId = (devs i).devId) (hopen : d.isOpen = (devs i).isOpen) (hd : Holds d st) :
    Table (Function.update devs i d) (Function.update streams (devs i).devId (some st)) next := by
  have hsame : ∀ j, (Function.update devs i d j).isOpen = (devs j).isOpen ∧
      (Function.update devs i d j).devId = (devs j).devId := by
    intro j
    by_cases hj : j = i
    · subst hj
      rw [Function.update_self]
      exact ⟨hopen, hid⟩
    · rw [Function.update_of_ne hj]
      exact ⟨rfl, rfl⟩
  constructor
  · intro j hj
    rw [(hsame j).1] at hj
    rw [(hsame j).2]
    by_cases hji : j = i
    · subst hji
      refine ⟨st, Function.update_self .., ?_⟩
      rw [Function.update_self]
      exact hd
    · have hne : (devs j).devId ≠ (devs i).devId := fun heq => hji (h.distinct j i hj hi heq)
      rw [Function.update_of_ne hne, Function.update_of_ne hji]
      exact h.slots j hj
  · intro id st' hst'
    by_cases hsame' : id = (devs i).devId
    · subst hsame'
      exact ⟨i, (hsame i).1.trans hi, (hsame i).2⟩
    · rw [Function.update_of_ne hsame'] at hst'
      obtain ⟨j, hj, hjd⟩ := h.ids id st' hst'
      exact ⟨j, (hsame j).1.trans hj, (hsame j).2.trans hjd⟩
  · intro j hj
    rw [(hsame j).1] at hj
    rw [(hsame j).2]
    exact h.below j hj
  · intro j k hj hk heq
    rw [(hsame j).1] at hj
    rw [(hsame k).1] at hk
    rw [(hsame j).2, (hsame k).2] at heq
    exact h.distinct j k hj hk heq

theorem Table.cls (h : Table devs streams next) (hi : (devs i).isOpen = true)
    (hd : d.isOpen = false) :
    Table (Function.update devs i d) (Function.update streams (devs i).devId none) next := by
  have hothers : ∀ j, (Function.update devs i d j).isOpen = true →
      j ≠ i ∧ Function.update devs i d j = devs j := by
    intro j hj
    by_cases hji : j = i
    · subst hji
      rw [Function.update_self, hd] at hj
      cases hj
    · exact ⟨hji, Function.update_of_ne hji _ _⟩
  constructor
  · intro j hj
    obtain ⟨hji, hdev⟩ := hothers j hj
    rw [hdev] at hj ⊢
    have hne : (devs j).devId ≠ (devs i).devId := fun heq => hji (h.distinct j i hj hi heq)
    rw [Function.update_of_ne hne]
    exact h.slots j hj
  · intro id st hst
    by_cases hid : id = (devs i).devId
    · subst hid
      rw [Function.update_self] at hst
      cases hst
    · rw [Function.update_of_ne hid] at hst
      obtain ⟨j, hj, hjd⟩ := h.ids id st hst
      have hji : j ≠ i := by
        rintro rfl
        exact hid hjd.symm
      refine ⟨j, ?_⟩
      rw [Function.update_of_ne hji]
      exact ⟨hj, hjd⟩
  · intro j hj
    obtain ⟨-, hdev⟩ := hothers j hj
    rw [hdev] at hj ⊢
    exact h.below j hj
  · intro j k hj hk heq
    obtain ⟨-, hdev⟩ := hothers j hj
    obtain ⟨-, hdev'⟩ := hothers k hk
    rw [hdev] at hj heq
    rw [hdev'] at hk heq
    exact h.distinct j k hj hk heq

-- A slot that was closed is opened with an id that none had before.
theorem Table.opn (h : Table devs streams next) (hpos : 0 < next) (hi : (devs i).isOpen = false)
    (hid : d.devId = next) (hopen : d.isOpen = true) (hlen : d.bufLen = 0) :
    Table (Function.update devs i d) (Function.update streams next (some .empty)) (next + 1) := by
  constructor
  · intro j hj
    by_cases hji : j = i
    · subst hji
      rw [Function.update_self, hid, Function.update_self]
      exact ⟨.empty, rfl, holds_empty hlen⟩
    · rw [Function.update_of_ne hji] at hj ⊢
      have hlt := (h.below j hj).2
      rw [Function.update_of_ne (by omega)]
      exact h.slots j hj
  · intro id st hst
    by_cases hnew : id = next
    · subst hnew
      refine ⟨i, ?_⟩
      rw [Function.update_self]
      exact ⟨hopen, hid⟩
    · rw [Function.update_of_ne hnew] at hst
      obtain ⟨j, hj, hjd⟩ := h.ids id st hst
      have hji : j ≠ i := by
        rintro rfl
        rw [hi] at hj
        cases hj
      refine ⟨j, ?_⟩
      rw [Function.update_of_ne hji]
      exact ⟨hj, hjd⟩
  · intro j hj
    by_cases hji : j = i
    · subst hji
      rw [Function.update_self, hid]
      omega
    · rw [Function.update_of_ne hji] at hj ⊢
      have hbelow := h.below j hj
      omega
  · intro j k hj hk heq
    by_cases hji : j = i
    · by_cases hki : k = i
      · rw [hji, hki]
      · subst hji
        rw [Function.update_of_ne hki] at hk heq
        rw [Function.update_self, hid] at heq
        have hlt := (h.below k hk).2
        omega
    · rw [Function.update_of_ne hji] at hj heq
      by_cases hki : k = i
      · subst hki
        rw [Function.update_self, hid] at heq
        have hlt := (h.below j hj).2
        omega
      · rw [Function.update_of_ne hki] at hk heq
        exact h.distinct j k hj hk heq

end Tables

theorem refines_set {s : Devs} {q : Streams} (h : Refines s q) (hinit : s.init = true)
    {i : Fin maxDevices} {d : Dev} {st : Stream UB} (hi : (s.devs i).isOpen = true)
    (hid : d.devId = (s.devs i).devId) (hopen : d.isOpen = (s.devs i).isOpen) (hd : Holds d st) :
    Refines (s.set i d) (q.set (s.devs i).devId (some st)) where
  fresh := fun hnot => absurd (hinit.symm.trans hnot) (by decide)
  next_eq := h.next_eq
  next_pos := h.next_pos
  table := h.table.set hi hid hopen hd
  count_eq := by
    rw [Devs.set, openSlots_open (hopen.trans hi), Finset.insert_eq_of_mem (mem_openSlots.mpr hi)]
    exact h.count_eq

theorem refines_cls {s : Devs} {q : Streams} (h : Refines s q) (hinit : s.init = true)
    {i : Fin maxDevices} (hi : (s.devs i).isOpen = true) :
    Refines (s.set i { s.devs i with isOpen := false })
      { q.set (s.devs i).devId none with count := q.count - 1 } where
  fresh := fun hnot => absurd (hinit.symm.trans hnot) (by decide)
  next_eq := h.next_eq
  next_pos := h.next_pos
  table := h.table.cls hi rfl
  count_eq := by
    rw [Devs.set, openSlots_closed rfl, Finset.card_erase_of_mem (mem_openSlots.mpr hi),
      ← h.count_eq]

theorem refines_opn {s : Devs} {q : Streams} (h : Refines s q) (hinit : s.init = true)
    {i : Fin maxDevices} {d : Dev} (hi : (s.devs i).isOpen = false) (hid : d.devId = q.next)
    (hopen : d.isOpen = true) (hlen : d.bufLen = 0) :
    Refines { s.set i d with nextDevId := q.next + 1 }
      { q.set q.next (some .empty) with next := q.next + 1, count := q.count + 1 } where
  fresh := fun hnot => absurd (hinit.symm.trans hnot) (by decide)
  next_eq := rfl
  next_pos := Int.lt_add_one_of_le (Int.le_of_lt h.next_pos)
  table := h.table.opn h.next_pos hi hid hopen hlen
  count_eq := by
    have hnot : i ∉ openSlots s.devs := by
      rw [mem_openSlots, hi]
      exact Bool.false_ne_true
    show q.count + 1 = (openSlots (Function.update s.devs i d)).card
    rw [openSlots_open hopen, Finset.card_insert_of_notMem hnot, ← h.count_eq]

theorem opn_refines {s : Devs} {q : Streams} (h : Refines s q) (devName : Option (List UB))
    (mode : Nat) :
    Option.Rel (fun r r' => r.2 = r'.2 ∧ Refines r.1 r'.1) (opnDevMgr s devName mode)
      (Spec.opn q devName) := by
  unfold opnDevMgr
  cases devName with
  | none => exact .some ⟨rfl, h⟩
  | some devName =>
      obtain ⟨h', hinit⟩ := refines_initOnce h
      rw [Spec.opn]
      simp only
      cases hfind : findFree (devInitOnce s) with
      | none =>
          have hall : openSlots (devInitOnce s).devs = Finset.univ := by
            rw [Finset.eq_univ_iff_forall]
            intro i
            have hi := Fin.eq_false_of_find?_eq_none hfind i
            rw [mem_openSlots]
            simpa using hi
          have hfull : q.count = maxDevices := by
            rw [h'.count_eq, hall, Finset.card_univ, Fintype.card_fin]
          rw [if_pos hfull]
          exact .some ⟨rfl, h'⟩
      | some i =>
          have hi : ((devInitOnce s).devs i).isOpen = false := by
            have htrue := Fin.eq_true_of_find?_eq_some hfind
            simpa using htrue
          have hroom : q.count ≠ maxDevices := by
            have hlt : (openSlots (devInitOnce s).devs).card < Fintype.card (Fin maxDevices) := by
              apply Finset.card_lt_univ_of_notMem (x := i)
              rw [mem_openSlots, hi]
              exact Bool.false_ne_true
            rw [← h'.count_eq, Fintype.card_fin] at hlt
            omega
          simp only [h'.next_eq]
          rw [if_neg hroom]
          split
          · exact .none
          · exact .some ⟨rfl, refines_opn h' hinit hi rfl rfl rfl⟩

theorem cls_refines {s : Devs} {q : Streams} (h : Refines s q) (id : Int) :
    (clsDevMgr s id).2 = (Spec.cls q id).2 ∧ Refines (clsDevMgr s id).1 (Spec.cls q id).1 := by
  rw [clsDevMgr, Spec.cls]
  by_cases hid : id ≤ 0
  · rw [if_pos hid, streams_of_nonpos h hid]
    exact ⟨rfl, h⟩
  rw [if_neg hid]
  obtain ⟨h', hinit⟩ := refines_initOnce h
  obtain ⟨hfind, hnone⟩ | ⟨i, st, hfind, hopen, rfl, hst, -⟩ := find_cases h' id
  · simp only [hfind, hnone]
    exact ⟨trivial, h'⟩
  · simp only [hfind, hst]
    exact ⟨trivial, refines_cls h' hinit hopen⟩

theorem rea_refines {s : Devs} {q : Streams} (h : Refines s q) (id : Int) (out : Bool) (sz : Int) :
    ∃ s', reaDev s id out sz = some (s', (Spec.rea q id out sz).2) ∧
      Refines s' (Spec.rea q id out sz).1 := by
  rw [reaDev, Spec.rea]
  by_cases hpar : !out ∨ sz < 0
  · rw [if_pos hpar, if_pos hpar]
    exact ⟨s, rfl, h⟩
  rw [if_neg hpar, if_neg hpar]
  by_cases hid : id ≤ 0
  · rw [if_pos hid, streams_of_nonpos h hid]
    exact ⟨s, rfl, h⟩
  rw [if_neg hid]
  obtain ⟨h', hinit⟩ := refines_initOnce h
  obtain ⟨hfind, hnone⟩ | ⟨i, st, hfind, hopen, rfl, hst, hholds⟩ := find_cases h' id
  · simp only [hfind, hnone]
    exact ⟨_, rfl, h'⟩
  · obtain ⟨d, hread, hd, hdid, hdopen⟩ := read_spec hholds (show 0 ≤ sz by omega)
    simp only [hfind, hst, hread]
    exact ⟨_, rfl, refines_set h' hinit hopen hdid hdopen hd⟩

theorem wri_refines {s : Devs} {q : Streams} (h : Refines s q) (id : Int) (buf : Option Memory)
    (sz : Int) :
    ∃ s', wriDev s id buf sz = some (s', (Spec.wri q id buf sz).2) ∧
      Refines s' (Spec.wri q id buf sz).1 := by
  cases buf with
  | none => exact ⟨s, rfl, h⟩
  | some buf =>
      rw [wriDev, Spec.wri]
      simp only
      by_cases hpar : sz < 0
      · rw [if_pos hpar, if_pos hpar]
        exact ⟨s, rfl, h⟩
      rw [if_neg hpar, if_neg hpar]
      by_cases hid : id ≤ 0
      · rw [if_pos hid, streams_of_nonpos h hid]
        exact ⟨s, rfl, h⟩
      rw [if_neg hid]
      obtain ⟨h', hinit⟩ := refines_initOnce h
      obtain ⟨hfind, hnone⟩ | ⟨i, st, hfind, hopen, rfl, hst, hholds⟩ := find_cases h' id
      · simp only [hfind, hnone]
        exact ⟨_, rfl, h'⟩
      · obtain ⟨d, hwrite, hd, hdid, hdopen⟩ := write_spec hholds buf (show 0 ≤ sz by omega)
        simp only [hfind, hst, hwrite]
        exact ⟨_, rfl, refines_set h' hinit hopen hdid hdopen hd⟩

theorem ctl_refines {s : Devs} {q : Streams} (h : Refines s q) (id cmd : Int) :
    (ctlDev s id cmd).2 = (Spec.ctl q id cmd).2 ∧
      Refines (ctlDev s id cmd).1 (Spec.ctl q id cmd).1 := by
  rw [ctlDev, Spec.ctl]
  by_cases hid : id ≤ 0
  · rw [if_pos hid, streams_of_nonpos h hid]
    exact ⟨rfl, h⟩
  rw [if_neg hid]
  obtain ⟨h', hinit⟩ := refines_initOnce h
  obtain ⟨hfind, hnone⟩ | ⟨i, st, hfind, hopen, rfl, hst, -⟩ := find_cases h' id
  · simp only [hfind, hnone]
    exact ⟨trivial, h'⟩
  · simp only [hfind, hst]
    refine ⟨trivial, ?_⟩
    split
    · exact refines_set h' hinit hopen rfl rfl (holds_empty rfl)
    · exact h'

-- A call gives the same result on both levels, or on both levels the counter overflows.
abbrev Agree {α : Type} (r : Option (Devs × α)) (r' : Option (Streams × α)) : Prop :=
  Option.Rel (fun r r' => r.2 = r'.2 ∧ Refines r.1 r'.1) r r'

theorem exec_refines {s : Devs} {q : Streams} (h : Refines s q) (c : Call) :
    Agree (exec s c) (Spec.exec q c) := by
  cases c with
  | opn devName mode =>
      have hopn := opn_refines h devName mode
      rw [exec, Spec.exec]
      cases hr : opnDevMgr s devName mode <;> cases hr' : Spec.opn q devName <;>
        rw [hr, hr'] at hopn <;> cases hopn
      · exact .none
      · rename_i hrel
        exact .some ⟨congrArg Result.ofER hrel.1, hrel.2⟩
  | cls id =>
      obtain ⟨hresult, hstate⟩ := cls_refines h id
      exact .some ⟨congrArg Result.ofER hresult, hstate⟩
  | rea id out sz =>
      obtain ⟨s', hrea, hstate⟩ := rea_refines h id out sz
      rw [exec, hrea]
      exact .some ⟨rfl, hstate⟩
  | wri id buf sz =>
      obtain ⟨s', hwri, hstate⟩ := wri_refines h id buf sz
      rw [exec, hwri]
      exact .some ⟨rfl, hstate⟩
  | ctl id cmd =>
      obtain ⟨hresult, hstate⟩ := ctl_refines h id cmd
      exact .some ⟨congrArg Result.ofER hresult, hstate⟩

theorem run_refines {s : Devs} {q : Streams} (h : Refines s q) (cs : List Call) :
    Agree (run s cs) (Spec.run q cs) := by
  induction cs generalizing s q with
  | nil => exact .some ⟨rfl, h⟩
  | cons c cs ih =>
      have hexec := exec_refines h c
      rw [run, Spec.run]
      cases hr : exec s c <;> cases hr' : Spec.exec q c <;> rw [hr, hr'] at hexec <;> cases hexec
      · exact .none
      · rename_i r r' hrel
        have hrest := ih hrel.2
        simp only [Option.bind_eq_bind, Option.bind_some]
        cases hrun : run r.1 cs <;> cases hrun' : Spec.run r'.1 cs <;>
          rw [hrun, hrun'] at hrest <;> cases hrest
        · exact .none
        · rename_i hrel'
          exact .some ⟨by simp only [hrel.1, hrel'.1], hrel'.2⟩

-- The open slots stand for the streams of their ids.
structure Law (s : Devs) (q : Streams) : Prop where
  stream : ∀ i, (s.devs i).isOpen = true →
    ∃ st, q.streams (s.devs i).devId = some st ∧ st.read ++ (s.devs i).contents = st.written ∧
      (s.devs i).contents.length ≤ 1024
  distinct : ∀ i j, (s.devs i).isOpen = true → (s.devs j).isOpen = true →
    (s.devs i).devId = (s.devs j).devId → i = j
  closed : ∀ id, q.streams id = none ↔ ∀ i, (s.devs i).isOpen = true → (s.devs i).devId ≠ id

theorem Refines.law {s : Devs} {q : Streams} (h : Refines s q) : Law s q := by
  refine ⟨fun i hi => ?_, h.table.distinct, fun id => ?_⟩
  · obtain ⟨st, hst, hholds⟩ := h.table.slots i hi
    refine ⟨st, hst, ?_, ?_⟩
    · rw [hholds.contents_eq, hholds.valid.read_append_pending]
    · have hroom := hholds.room
      rw [contents_length]
      omega
  · constructor
    · rintro hnone i hi rfl
      obtain ⟨st, hst, -⟩ := h.table.slots i hi
      rw [hnone] at hst
      cases hst
    · intro hnot
      rw [Option.eq_none_iff_forall_ne_some]
      intro st hst
      obtain ⟨i, hi, hid⟩ := h.table.ids id st hst
      exact hnot i hi hid

-- Every run gives the results of the streams, and ends with devices that hold them.
theorem devices_are_fifos (cs : List Call) :
    Option.Rel (fun r r' => r.2 = r'.2 ∧ Law r.1 r'.1) (run .start cs) (Spec.run .start cs) := by
  have hrun := run_refines refines_start cs
  cases hr : run .start cs <;> cases hr' : Spec.run .start cs <;> rw [hr, hr'] at hrun <;>
    cases hrun
  · exact .none
  · rename_i hrel
    exact .some ⟨hrel.1, hrel.2.law⟩

end BTron.Device
