import BTron.Types

namespace BTron.Libstr

-- The constants of a build. `room` says that no sum the allocator forms from sizes within
-- the pool wraps around.
structure Target where
  -- one more than the largest size_t
  sizeMod : Nat
  -- sizeof(s_heap_pool)
  poolSize : Nat
  aligned : 16 ∣ sizeMod
  room : 2 * poolSize + 128 ≤ sizeMod

def hosted : Target := ⟨2 ^ 64, 1024 * 1024 * 16, by decide, by decide⟩
def mips : Target := ⟨2 ^ 32, 1024 * 1024, by decide, by decide⟩
def arm : Target := ⟨2 ^ 32, 64, by decide, by decide⟩
def aarch64 : Target := ⟨2 ^ 64, 64, by decide, by decide⟩

-- A pointer into s_heap_pool is an offset, NULL is `none`.
abbrev Ptr := Option Nat

structure HeapBlock where
  size : Nat
  isFree : Nat
  magic : Nat
  next : Ptr
  prev : Ptr

def heapMagic : Nat := 0x48454150

-- sizeof(HeapBlock), with 4-byte and with 8-byte pointers.
def headerSize : Nat := 48

-- s_heap_pool by its two uses, the headers by address and the payload bytes.
structure Heap where
  offset : Nat
  head : Ptr
  mem : Nat → HeapBlock
  bytes : Memory

-- One assignment to a header.
def modify (mem : Nat → HeapBlock) (a : Nat) (f : HeapBlock → HeapBlock) : Nat → HeapBlock :=
  fun x => if x = a then f (mem x) else mem x

-- `if (p) p->prev = v`
def setPrev (mem : Nat → HeapBlock) (p : Ptr) (v : Ptr) : Nat → HeapBlock :=
  match p with
  | none => mem
  | some a => modify mem a fun b => { b with prev := v }

def Target.add (t : Target) (m n : Nat) : Nat := (m + n) % t.sizeMod

def Target.sub (t : Target) (m n : Nat) : Nat := (m + t.sizeMod - n) % t.sizeMod

-- `(n + 15) & ~15`
def Target.align (t : Target) (n : Nat) : Nat := t.add n 15 - t.add n 15 % 16

def fits (b : HeapBlock) (size : Nat) : Prop :=
  b.magic = heapMagic ∧ b.isFree ≠ 0 ∧ size ≤ b.size

instance (b : HeapBlock) (size : Nat) : Decidable (fits b size) :=
  inferInstanceAs (Decidable (_ ∧ _))

-- The first-fit search from `curr`, in at most `fuel` steps.
def findFit (mem : Nat → HeapBlock) (size : Nat) : Nat → Ptr → Option Ptr
  | _, none => some none
  | 0, some _ => none
  | fuel + 1, some curr =>
    if fits (mem curr) size then some (some curr) else findFit mem size fuel (mem curr).next

-- `while (tail->next) tail = tail->next`
def findTail (mem : Nat → HeapBlock) : Nat → Nat → Option Nat
  | 0, _ => none
  | fuel + 1, tail =>
    match (mem tail).next with
    | none => some tail
    | some next => findTail mem fuel next

def splitBlock (t : Target) (mem : Nat → HeapBlock) (curr size : Nat) : Nat → HeapBlock :=
  let split := curr + headerSize + size
  let next := (mem curr).next
  let mem := modify mem split fun _ =>
    ⟨t.sub (t.sub (mem curr).size size) headerSize, 1, heapMagic, next, some curr⟩
  let mem := setPrev mem next (some split)
  modify mem curr fun b => { b with next := some split, size := size }

-- The block the search stopped at is handed out.
def reuse (t : Target) (h : Heap) (curr size : Nat) : Heap :=
  let mem :=
    if t.add (t.add size headerSize) 16 ≤ (h.mem curr).size then splitBlock t h.mem curr size
    else h.mem
  { h with mem := modify mem curr fun b => { b with isFree := 0 } }

def bump (t : Target) (fuel : Nat) (h : Heap) (size : Nat) : Option (Ptr × Heap) :=
  let needed := t.align (t.add headerSize size)
  if t.poolSize < t.add h.offset needed then some (none, h)
  else
    let blk := h.offset
    let mem := modify h.mem blk fun _ => ⟨size, 0, heapMagic, none, none⟩
    let h := { h with offset := t.add h.offset needed, mem := mem }
    match h.head with
    | none => some (some (blk + headerSize), { h with head := some blk })
    | some head => do
      let tail ← findTail mem fuel head
      let mem := modify mem tail fun b => { b with next := some blk }
      let mem := modify mem blk fun b => { b with prev := some tail }
      some (some (blk + headerSize), { h with mem := mem })

-- `none` stands for a call that has not returned after `fuel` steps along the list.
def imallocFuel (t : Target) (fuel : Nat) (h : Heap) (size : Nat) : Option (Ptr × Heap) :=
  if size = 0 then some (none, h)
  else do
    let size := t.align size
    match ← findFit h.mem size fuel h.head with
    | some curr => some (some (curr + headerSize), reuse t h curr size)
    | none => bump t fuel h size

-- The walks do not change the list, so one longer than the pool goes round for ever.
def imalloc (t : Target) (h : Heap) (size : Nat) : Option (Ptr × Heap) :=
  imallocFuel t (t.poolSize + 1) h size

def memset (bytes : Memory) (p : Nat) (n : Nat) : Memory :=
  fun a => if p ≤ a ∧ a < p + n then 0 else bytes a

def icalloc (t : Target) (h : Heap) (nmemb size : Nat) : Option (Ptr × Heap) := do
  let total := nmemb * size % t.sizeMod
  let (p, h) ← imalloc t h total
  match p with
  | none => some (none, h)
  | some a => some (some a, { h with bytes := memset h.bytes a total })

-- The block at `b` is joined to the one at `a`, as both coalescing steps do.
def absorb (t : Target) (mem : Nat → HeapBlock) (a b : Nat) : Nat → HeapBlock :=
  let next := (mem b).next
  let mem := modify mem a fun x =>
    { x with size := t.add x.size (t.add headerSize (mem b).size), next := next }
  setPrev mem next (some a)

def coalesceForward (t : Target) (mem : Nat → HeapBlock) (blk : Nat) : Nat → HeapBlock :=
  match (mem blk).next with
  | none => mem
  | some nxt =>
    if (mem nxt).isFree ≠ 0 ∧ (mem nxt).magic = heapMagic then absorb t mem blk nxt else mem

def coalesceBackward (t : Target) (mem : Nat → HeapBlock) (blk : Nat) :
    (Nat → HeapBlock) × Nat :=
  match (mem blk).prev with
  | none => (mem, blk)
  | some prv =>
    if (mem prv).isFree ≠ 0 ∧ (mem prv).magic = heapMagic then (absorb t mem prv blk, prv)
    else (mem, blk)

def shrink (h : Heap) (blk : Nat) : Heap :=
  if (h.mem blk).next = none ∧ (h.mem blk).isFree ≠ 0 then
    match (h.mem blk).prev with
    | none => { h with head := none, offset := blk }
    | some prv =>
      { h with mem := modify h.mem prv fun b => { b with next := none }, offset := blk }
  else h

def ifree (t : Target) (h : Heap) (ptr : Ptr) : Heap :=
  match ptr with
  | none => h
  | some p =>
    let blk := p - headerSize
    if (h.mem blk).magic ≠ heapMagic then h
    else
      let mem := modify h.mem blk fun b => { b with isFree := 1 }
      let mem := coalesceForward t mem blk
      let r := coalesceBackward t mem blk
      shrink { h with mem := r.1 } r.2

-- s_heap_head and s_heap_offset before the first call; the pool is zero.
def emptyHeap : Heap := ⟨0, none, fun _ => ⟨0, 0, 0, none, none⟩, fun _ => 0⟩

end BTron.Libstr
