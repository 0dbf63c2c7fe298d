import BTron.Lib.Bits
import BTron.Lib.Memory
import BTron.Lib.Run
import BTron.TKernel.Wait

namespace BTron.TKernel.MessageBuffer

open Lib Lib.Bits

def HEADERSZ : Nat := 4

def ROUNDSZ (sz : Nat) : Nat := (sz + 3) / 4 * 4

-- The fields of the control block for the messages, and the bytes of the buffer
structure Ring where
  bufsz : Nat
  frbufsz : Nat
  head : Nat
  tail : Nat
  buffer : Nat → UInt8

-- MEMCPY to the buffer. It fails where it would leave it.
def memcpyTo (bufsz : Nat) (buffer : Nat → UInt8) (dst : Nat) (bs : List UInt8) :
    Option (Nat → UInt8) :=
  if dst + bs.length ≤ bufsz then
    some fun i => if dst ≤ i ∧ i < dst + bs.length then bs.getD (i - dst) 0 else buffer i
  else none

def memcpyFrom (bufsz : Nat) (buffer : Nat → UInt8) (src n : Nat) : Option (List UInt8) :=
  if src + n ≤ bufsz then some ((List.range n).map fun k => buffer (src + k)) else none

def mbfFree (mbf : Ring) (msgsz : Nat) : Bool := HEADERSZ + msgsz ≤ mbf.frbufsz

def mbfEmpty (mbf : Ring) : Bool := mbf.frbufsz = mbf.bufsz

-- `if ( pos >= mbfcb->bufsz ) pos = 0;`
def wrapAt (bufsz pos : Nat) : Nat := if pos ≥ bufsz then 0 else pos

-- The part after the header, in one piece or in two
def copyIn (bufsz : Nat) (buffer : Nat → UInt8) (tail : Nat) (msg : List UInt8) :
    Option ((Nat → UInt8) × Nat) := do
  let remsz := bufsz - tail
  if remsz < msg.length then
    let buffer ← memcpyTo bufsz buffer tail (msg.take remsz)
    let buffer ← memcpyTo bufsz buffer 0 (msg.drop remsz)
    some (buffer, wrapAt bufsz (ROUNDSZ (msg.length - remsz)))
  else
    let buffer ← memcpyTo bufsz buffer tail msg
    some (buffer, wrapAt bufsz (tail + ROUNDSZ msg.length))

def copyOut (bufsz : Nat) (buffer : Nat → UInt8) (head msgsz : Nat) :
    Option (List UInt8 × Nat) := do
  let remsz := bufsz - head
  if remsz < msgsz then
    let msg1 ← memcpyFrom bufsz buffer head remsz
    let msg2 ← memcpyFrom bufsz buffer 0 (msgsz - remsz)
    some (msg1 ++ msg2, wrapAt bufsz (ROUNDSZ (msgsz - remsz)))
  else
    let msg ← memcpyFrom bufsz buffer head msgsz
    some (msg, wrapAt bufsz (head + ROUNDSZ msgsz))

def msgToMbf (mbf : Ring) (msg : List UInt8) : Option Ring := do
  let buffer ← memcpyTo mbf.bufsz mbf.buffer mbf.tail (leBytes HEADERSZ msg.length)
  let (buffer, tail) ← copyIn mbf.bufsz buffer (wrapAt mbf.bufsz (mbf.tail + HEADERSZ)) msg
  some { mbf with
    frbufsz := mbf.frbufsz - (HEADERSZ + ROUNDSZ msg.length)
    tail
    buffer }

def mbfToMsg (mbf : Ring) : Option (List UInt8 × Ring) := do
  let header ← memcpyFrom mbf.bufsz mbf.buffer mbf.head HEADERSZ
  let msgsz := leValue header
  let (msg, head) ←
    copyOut mbf.bufsz mbf.buffer (wrapAt mbf.bufsz (mbf.head + HEADERSZ)) msgsz
  some (msg, { mbf with frbufsz := mbf.frbufsz + (HEADERSZ + ROUNDSZ msgsz), head })

def creRing (bufsz : Nat) (buffer : Nat → UInt8) : Ring :=
  ⟨ROUNDSZ bufsz, ROUNDSZ bufsz, 0, 0, buffer⟩

-- Where the byte `k` after the head is
def place (n head k : Nat) : Nat := if head + k < n then head + k else head + k - n

-- The buffer read from the head on
def view (n head : Nat) (buffer : Nat → UInt8) (k : Nat) : UInt8 := buffer (place n head k)

def size (msg : List UInt8) : Nat := HEADERSZ + ROUNDSZ msg.length

def sizes : List (List UInt8) → Nat
  | [] => 0
  | msg :: msgs => size msg + sizes msgs

-- From the offset on the messages follow each other, each behind its header.
def Laid (cells : Nat → UInt8) : Nat → List (List UInt8) → Prop
  | _, [] => True
  | o, msg :: msgs =>
    Stored cells o (leBytes HEADERSZ msg.length ++ msg) ∧ Laid cells (o + size msg) msgs

structure Holds (mbf : Ring) (msgs : List (List UInt8)) : Prop where
  laid : Laid (view mbf.bufsz mbf.head mbf.buffer) 0 msgs
  room : sizes msgs + mbf.frbufsz = mbf.bufsz
  tail : mbf.bufsz ≠ 0 → mbf.tail = place mbf.bufsz mbf.head (sizes msgs)
  head : mbf.bufsz ≠ 0 → mbf.head < mbf.bufsz
  words : 4 ∣ mbf.bufsz ∧ 4 ∣ mbf.head
  lengths : ∀ msg ∈ msgs, msg.length < 256 ^ HEADERSZ

variable {n head o k dst : Nat} {buffer buffer' : Nat → UInt8} {bs msg : List UInt8}
  {msgs : List (List UInt8)} {mbf : Ring}

theorem roundsz_spec (sz : Nat) : 4 ∣ ROUNDSZ sz ∧ sz ≤ ROUNDSZ sz ∧ ROUNDSZ sz < sz + 4 := by
  rw [ROUNDSZ]
  omega

theorem roundsz_sub {sz r : Nat} (hr : 4 ∣ r) (hle : r ≤ sz) :
    ROUNDSZ (sz - r) = ROUNDSZ sz - r := by
  rw [ROUNDSZ, ROUNDSZ]
  omega

theorem sizes_append (msgs msgs' : List (List UInt8)) :
    sizes (msgs ++ msgs') = sizes msgs + sizes msgs' := by
  induction msgs with
  | nil => rw [List.nil_append, sizes, Nat.zero_add]
  | cons msg msgs ih => rw [List.cons_append, sizes, sizes, ih, Nat.add_assoc]

theorem dvd_sizes (msgs : List (List UInt8)) : 4 ∣ sizes msgs := by
  induction msgs with
  | nil => exact Nat.dvd_zero 4
  | cons msg msgs ih =>
      have hround := (roundsz_spec msg.length).1
      rw [sizes, size, HEADERSZ]
      omega

theorem place_zero (hhead : head < n) : place n head 0 = head := by
  rw [place, if_pos (by omega), Nat.add_zero]

theorem place_lt (hhead : head < n) (hk : k ≤ n) : place n head k < n := by
  rw [place]
  split <;> omega

theorem place_add (hhead : head < n) (hk : o + k ≤ n) :
    place n head (o + k) = place n (place n head o) k := by
  unfold place
  split <;> split <;> split <;> omega

theorem place_of_fit {p : Nat} (h : p + k < n) : place n p k = p + k := if_pos h

theorem dvd_place (hn : 4 ∣ n) (hhead : 4 ∣ head) (ho : 4 ∣ o) : 4 ∣ place n head o := by
  rw [place]
  split <;> omega

theorem wrapAt_add {p : Nat} (h : p + k ≤ n) : wrapAt n (p + k) = place n p k := by
  rw [wrapAt, place]
  split <;> split <;> omega

-- A copy in one piece changes the bytes it is about and no other.
theorem memcpyTo_spec (buffer : Nat → UInt8) (bs : List UInt8) (hhead : head < n)
    (ho : o + bs.length ≤ n) (hfit : place n head o + bs.length ≤ n) :
    ∃ buffer', memcpyTo n buffer (place n head o) bs = some buffer' ∧
      Stored (view n head buffer') o bs ∧
      ∀ k < n, k < o ∨ o + bs.length ≤ k → view n head buffer' k = view n head buffer k := by
  refine ⟨_, if_pos hfit, ?_, ?_⟩
  · intro k hk
    have hplace : place n head (o + k) = place n head o + k := by
      rw [place_add hhead (by omega)]
      exact place_of_fit (by omega)
    rw [view, hplace, if_pos ⟨Nat.le_add_right _ _, by omega⟩, Nat.add_sub_cancel_left]
    simp [hk]
  · intro k hk hout
    rw [view, if_neg ?_, view]
    unfold place at hfit ⊢
    split at hfit <;> split <;> split <;> omega

theorem memcpyFrom_spec (hhead : head < n) (ho : o + bs.length ≤ n)
    (h : Stored (view n head buffer) o bs) (hfit : place n head o + bs.length ≤ n) :
    memcpyFrom n buffer (place n head o) bs.length = some bs := by
  rw [memcpyFrom, if_pos hfit]
  refine congrArg some (List.ext_getElem (by simp) ?_)
  intro k hk hk'
  have hplace : place n head (o + k) = place n head o + k := by
    rw [place_add hhead (by omega)]
    exact place_of_fit (by omega)
  have hcell := h k hk'
  rw [view, hplace] at hcell
  simpa using hcell

-- The rest of a message that goes over the end starts at the front and ends where it should.
theorem wrapAt_rest (hhead : head < n) (hn : 4 ∣ n) (hhead4 : 4 ∣ head) (ho4 : 4 ∣ o) {sz : Nat}
    (ho : o + ROUNDSZ sz ≤ n) (hrem : n - place n head o < sz) :
    wrapAt n (ROUNDSZ (sz - (n - place n head o))) = place n head (o + ROUNDSZ sz) := by
  have hp4 := dvd_place hn hhead4 ho4
  have hplt := place_lt (k := o) hhead (by omega)
  rw [place_add hhead ho]
  generalize place n head o = p at *
  have hle := (roundsz_spec sz).2.1
  rw [roundsz_sub (by omega) (by omega), wrapAt, place]
  split <;> split <;> omega

-- In one piece or in two, the bytes go where they belong and the place goes on.
theorem copyIn_spec (buffer : Nat → UInt8) (msg : List UInt8) (hhead : head < n) (hn : 4 ∣ n)
    (hhead4 : 4 ∣ head) (ho4 : 4 ∣ o) (ho : o + ROUNDSZ msg.length ≤ n) :
    ∃ buffer', copyIn n buffer (place n head o) msg =
        some (buffer', place n head (o + ROUNDSZ msg.length)) ∧
      Stored (view n head buffer') o msg ∧
      ∀ k < n, k < o ∨ o + msg.length ≤ k → view n head buffer' k = view n head buffer k := by
  have hle := (roundsz_spec msg.length).2.1
  have hp4 := dvd_place hn hhead4 ho4
  have hplt := place_lt (k := o) hhead (by omega)
  rw [copyIn]
  split
  · rename_i hrem
    have hend := wrapAt_rest hhead hn hhead4 ho4 ho hrem
    have hzero : place n head (o + (n - place n head o)) = 0 := by
      rw [place_add hhead (by omega), ← wrapAt_add (by omega), wrapAt, if_pos (by omega)]
    have hlen1 : (msg.take (n - place n head o)).length = n - place n head o := by
      rw [List.length_take]
      omega
    have hlen2 : (msg.drop (n - place n head o)).length = msg.length - (n - place n head o) :=
      List.length_drop
    obtain ⟨buffer1, hcopy1, hstored1, hframe1⟩ := memcpyTo_spec (o := o)
      buffer (msg.take (n - place n head o)) hhead (by omega) (by omega)
    obtain ⟨buffer2, hcopy2, hstored2, hframe2⟩ := memcpyTo_spec (o := o + (n - place n head o))
      buffer1 (msg.drop (n - place n head o)) hhead (by omega) (by omega)
    rw [hzero] at hcopy2
    refine ⟨buffer2, ?_, ?_, ?_⟩
    · rw [hcopy1, Option.bind_eq_bind, Option.bind_some, hcopy2,
        Option.bind_some, hend]
    · rw [← List.take_append_drop (n - place n head o) msg, stored_append, hlen1]
      refine ⟨?_, hstored2⟩
      intro k hk
      rw [hframe2 _ (by omega) (.inl (by omega))]
      exact hstored1 k hk
    · intro k hk hout
      rw [hframe2 k hk (by omega), hframe1 k hk (by omega)]
  · rename_i hrem
    obtain ⟨buffer', hcopy, hstored, hframe⟩ := memcpyTo_spec (o := o)
      buffer msg hhead (by omega) (by omega)
    refine ⟨buffer', ?_, hstored, hframe⟩
    have hfit : place n head o + ROUNDSZ msg.length ≤ n := by
      obtain ⟨hround, hge, hlt⟩ := roundsz_spec msg.length
      omega
    rw [hcopy, Option.bind_eq_bind, Option.bind_some, wrapAt_add hfit, place_add hhead ho]

theorem copyOut_spec (hhead : head < n) (hn : 4 ∣ n) (hhead4 : 4 ∣ head) (ho4 : 4 ∣ o)
    (ho : o + ROUNDSZ msg.length ≤ n) (h : Stored (view n head buffer) o msg) :
    copyOut n buffer (place n head o) msg.length =
      some (msg, place n head (o + ROUNDSZ msg.length)) := by
  have hle := (roundsz_spec msg.length).2.1
  have hp4 := dvd_place hn hhead4 ho4
  have hplt := place_lt (k := o) hhead (by omega)
  rw [copyOut]
  split
  · rename_i hrem
    have hend := wrapAt_rest hhead hn hhead4 ho4 ho hrem
    have hzero : place n head (o + (n - place n head o)) = 0 := by
      rw [place_add hhead (by omega), ← wrapAt_add (by omega), wrapAt, if_pos (by omega)]
    have hlen1 : (msg.take (n - place n head o)).length = n - place n head o := by
      rw [List.length_take]
      omega
    have hlen2 : (msg.drop (n - place n head o)).length = msg.length - (n - place n head o) :=
      List.length_drop
    rw [← List.take_append_drop (n - place n head o) msg, stored_append, hlen1] at h
    have hcopy1 := memcpyFrom_spec hhead (by omega) h.1 (by omega)
    have hcopy2 := memcpyFrom_spec hhead (by omega) h.2 (by omega)
    rw [hlen1] at hcopy1
    rw [hzero, hlen2] at hcopy2
    rw [hcopy1, Option.bind_eq_bind, Option.bind_some, hcopy2,
      Option.bind_some, hend, List.take_append_drop]
  · rename_i hrem
    have hfit : place n head o + ROUNDSZ msg.length ≤ n := by
      obtain ⟨hround, hge, hlt⟩ := roundsz_spec msg.length
      omega
    rw [memcpyFrom_spec hhead (by omega) h (by omega), Option.bind_eq_bind, Option.bind_some,
      wrapAt_add hfit, place_add hhead ho]

theorem laid_append {cells : Nat → UInt8} (msgs : List (List UInt8)) (msg : List UInt8) :
    Laid cells o (msgs ++ [msg]) ↔ Laid cells o msgs ∧
      Stored cells (o + sizes msgs) (leBytes HEADERSZ msg.length ++ msg) := by
  induction msgs generalizing o with
  | nil =>
      rw [List.nil_append, Laid, Laid, sizes, Nat.add_zero]
      simp only [and_true, Laid, true_and]
  | cons m msgs ih => rw [List.cons_append, Laid, Laid, ih, sizes, Nat.add_assoc, and_assoc]

-- What is laid out stays so where the bytes are the same.
theorem Laid.congr {cells cells' : Nat → UInt8} {o' : Nat} (h : Laid cells o msgs)
    (hsame : ∀ k < sizes msgs, cells' (o' + k) = cells (o + k)) : Laid cells' o' msgs := by
  induction msgs generalizing o o' with
  | nil => trivial
  | cons msg msgs ih =>
      obtain ⟨hmsg, hrest⟩ := h
      have hle := (roundsz_spec msg.length).2.1
      have hlen : (leBytes HEADERSZ msg.length ++ msg).length ≤ size msg := by
        rw [List.length_append, leBytes_length, size]
        omega
      rw [sizes] at hsame
      refine ⟨?_, ih hrest ?_⟩
      · intro k hk
        rw [hsame k (by omega)]
        exact hmsg k hk
      · intro k hk
        rw [Nat.add_assoc, Nat.add_assoc]
        exact hsame _ (by omega)

theorem mbfEmpty_iff (h : Holds mbf msgs) : mbfEmpty mbf = true ↔ msgs = [] := by
  have hroom := h.room
  rw [mbfEmpty, decide_eq_true_eq]
  cases msgs with
  | nil =>
      rw [sizes, Nat.zero_add] at hroom
      exact ⟨fun _ => rfl, fun _ => hroom⟩
  | cons msg msgs =>
      rw [sizes, size, HEADERSZ] at hroom
      refine ⟨?_, nofun⟩
      omega

-- A message that fits goes behind those which are there.
theorem msgToMbf_spec (h : Holds mbf msgs) (hmsg : msg.length < 256 ^ HEADERSZ)
    (hfree : mbfFree mbf msg.length = true) :
    ∃ mbf', msgToMbf mbf msg = some mbf' ∧ Holds mbf' (msgs ++ [msg]) ∧
      mbf'.bufsz = mbf.bufsz ∧ mbf'.frbufsz ≤ mbf.frbufsz := by
  have hfree : HEADERSZ + msg.length ≤ mbf.frbufsz := of_decide_eq_true hfree
  have hroom := h.room
  obtain ⟨hn4, hhead4⟩ := h.words
  have hsizes4 := dvd_sizes msgs
  obtain ⟨hround, hge, hlt⟩ := roundsz_spec msg.length
  rw [HEADERSZ] at hfree
  have hhead := h.head (by omega)
  have htail := h.tail (by omega)
  have hp4 := dvd_place hn4 hhead4 hsizes4
  have hplt := place_lt (k := sizes msgs) hhead (by omega)
  have hheader : (leBytes HEADERSZ msg.length).length = 4 := leBytes_length _ _
  obtain ⟨buffer1, hcopy1, hstored1, hframe1⟩ := memcpyTo_spec (o := sizes msgs)
    mbf.buffer (leBytes HEADERSZ msg.length) hhead (by omega) (by omega)
  obtain ⟨buffer2, hcopy2, hstored2, hframe2⟩ := copyIn_spec (o := sizes msgs + 4)
    buffer1 msg hhead hn4 hhead4 (by omega) (by omega)
  have hafter : wrapAt mbf.bufsz (mbf.tail + HEADERSZ) =
      place mbf.bufsz mbf.head (sizes msgs + 4) := by
    rw [htail, HEADERSZ, wrapAt_add (by omega), place_add hhead (by omega)]
  refine ⟨{ mbf with
    frbufsz := mbf.frbufsz - (HEADERSZ + ROUNDSZ msg.length)
    tail := place mbf.bufsz mbf.head (sizes msgs + 4 + ROUNDSZ msg.length)
    buffer := buffer2 }, ?_, ?_, rfl, Nat.sub_le _ _⟩
  · rw [← htail] at hcopy1
    rw [msgToMbf, hcopy1, Option.bind_eq_bind, Option.bind_some, hafter, hcopy2]
    rfl
  · refine ⟨?_, ?_, ?_, h.head, h.words, ?_⟩
    · rw [laid_append, Nat.zero_add, stored_append, hheader]
      refine ⟨h.laid.congr ?_, ?_, hstored2⟩
      · intro k hk
        dsimp only
        rw [Nat.zero_add, hframe2 k (by omega) (by omega), hframe1 k (by omega) (by omega)]
      · intro k hk
        dsimp only
        rw [hframe2 _ (by omega) (by omega)]
        exact hstored1 k hk
    · rw [sizes_append, sizes, sizes, size]
      dsimp only
      rw [HEADERSZ]
      omega
    · intro _
      simp only [sizes_append, sizes, size, HEADERSZ, Nat.add_zero, Nat.add_assoc]
    · intro m hm
      obtain hm | hm := List.mem_append.mp hm
      · exact h.lengths m hm
      · rwa [List.mem_singleton.mp hm]

-- The first message comes back as it was put in.
theorem mbfToMsg_spec (h : Holds mbf (msg :: msgs)) :
    ∃ mbf', mbfToMsg mbf = some (msg, mbf') ∧ Holds mbf' msgs ∧ mbf'.bufsz = mbf.bufsz := by
  obtain ⟨hmsg, hrest⟩ := h.laid
  have hroom := h.room
  obtain ⟨hn4, hhead4⟩ := h.words
  obtain ⟨hround, hge, hlt⟩ := roundsz_spec msg.length
  rw [sizes, size, HEADERSZ] at hroom
  have hhead := h.head (by omega)
  have htail := h.tail (by omega)
  have hheader : (leBytes HEADERSZ msg.length).length = 4 := leBytes_length _ _
  have hstart := place_zero hhead
  rw [stored_append, hheader, Nat.zero_add] at hmsg
  have hcopy1 := memcpyFrom_spec hhead (by omega) hmsg.1 (by omega)
  have hcopy2 := copyOut_spec hhead hn4 hhead4 (by decide) (by omega) hmsg.2
  rw [hstart, hheader] at hcopy1
  have hafter : wrapAt mbf.bufsz (mbf.head + HEADERSZ) = place mbf.bufsz mbf.head 4 := by
    rw [HEADERSZ, wrapAt_add (by omega)]
  have hsize : 4 + ROUNDSZ msg.length = size msg := rfl
  refine ⟨{ mbf with
    frbufsz := mbf.frbufsz + (HEADERSZ + ROUNDSZ msg.length)
    head := place mbf.bufsz mbf.head (4 + ROUNDSZ msg.length) }, ?_, ?_, rfl⟩
  · have hcopy1 : memcpyFrom mbf.bufsz mbf.buffer mbf.head HEADERSZ = _ := hcopy1
    rw [mbfToMsg, hcopy1, Option.bind_eq_bind, Option.bind_some, hafter,
      leValue_leBytes (h.lengths msg List.mem_cons_self)]
    dsimp only
    rw [hcopy2]
    rfl
  · refine ⟨hrest.congr ?_, ?_, ?_, ?_, ⟨hn4, ?_⟩, ?_⟩
    · intro k hk
      dsimp only
      rw [Nat.zero_add, Nat.zero_add, view, view, hsize, ← place_add hhead (by omega)]
    · dsimp only
      rw [HEADERSZ]
      omega
    · intro _
      dsimp only
      rw [htail, sizes, hsize, place_add hhead (by omega)]
    · exact fun _ => place_lt hhead (by omega)
    · exact dvd_place hn4 hhead4 (by omega)
    · exact fun m hm => h.lengths m (List.mem_cons_of_mem _ hm)

theorem holds_creRing (bufsz : Nat) (buffer : Nat → UInt8) : Holds (creRing bufsz buffer) [] := by
  have hround := (roundsz_spec bufsz).1
  refine ⟨trivial, Nat.zero_add _, ?_, fun h => Nat.pos_of_ne_zero h, ⟨hround, Nat.dvd_zero 4⟩,
    nofun⟩
  intro h
  exact (place_zero (Nat.pos_of_ne_zero h)).symm

-- The queue of `gcb` is the one of the tasks that send. What such a task waits with is its message.
structure MbfCb where
  gcb : Gcb (List UInt8)
  recvQueue : List Nat
  maxmsz : Nat
  ring : Ring

-- The messages a call has taken in, and those it has given out
structure Traffic where
  accepted : List (List UInt8)
  delivered : List (List UInt8)

def idle : Traffic := ⟨[], []⟩

-- No error code is for a call that does not come back yet, and nothing at all for one that would
-- copy over the bounds of the buffer.
abbrev Result := Option (Option Er × Traffic × MbfCb)

def creMbf (tpri nodiswai : Bool) (bufsz maxmsz : Int) (buffer : Nat → UInt8) : Er ⊕ MbfCb :=
  if bufsz ≥ 0 ∧ maxmsz > 0 then
    .inr ⟨⟨[], tpri, nodiswai⟩, [], maxmsz.toNat, creRing bufsz.toNat buffer⟩
  else .inl .par

def canStore (ring : Option Ring) (w : Waiter (List UInt8)) : Bool :=
  ring.any (mbfFree · w.winfo.length)

def store (ring : Option Ring) (w : Waiter (List UInt8)) : Option Ring :=
  ring.bind (msgToMbf · w.winfo)

-- Also the messages of the tasks that go on
def mbfWakeup (mbf : MbfCb) : Option (List (List UInt8) × MbfCb) :=
  let (ring, served, left) :=
    serveQueue false canStore store (fun _ _ => false) (some mbf.ring) mbf.gcb.waitQueue
  ring.map fun ring => (served.map Waiter.winfo, { mbf with ring, gcb.waitQueue := left })

-- `indp` and `ddsp` are `in_indp()` and `in_ddsp()`.
def sndMbf (mbf : MbfCb) (indp ddsp : Bool) (tskid priority : Nat) (masked : Bool)
    (msg : List UInt8) (tmout : Int) : Result :=
  if ¬msg.length > 0 ∨ ¬tmout ≥ -1 then some (some .par, idle, mbf)
  else if tmout ≠ 0 ∧ ddsp then some (some .ctx, idle, mbf)
  else if msg.length > mbf.maxmsz then some (some .par, idle, mbf)
  else if ¬indp ∧ isDiswai mbf.gcb masked then some (some .diswai, idle, mbf)
  else
    match mbf.recvQueue with
    | _ :: recvQueue => some (some .ok, ⟨[msg], [msg]⟩, { mbf with recvQueue })
    | [] =>
      if (indp ∨ gcbTopIsSelf mbf.gcb priority) ∧ mbfFree mbf.ring msg.length then do
        let ring ← msgToMbf mbf.ring msg
        some (some .ok, ⟨[msg], []⟩, { mbf with ring })
      else if tmout = 0 then some (some .tmout, idle, mbf)
      else
        let (ercd, gcb) := gcbMakeWaitWithDiswai mbf.gcb masked ⟨tskid, priority, msg⟩ tmout
        some (ercd, idle, { mbf with gcb })

def rcvMbf (mbf : MbfCb) (ddsp : Bool) (tskid : Nat) (masked : Bool) (tmout : Int) : Result :=
  if ¬tmout ≥ -1 then some (some .par, idle, mbf)
  else if ddsp then some (some .ctx, idle, mbf)
  else if isDiswai mbf.gcb masked then some (some .diswai, idle, mbf)
  else if ¬mbfEmpty mbf.ring then do
    let (msg, ring) ← mbfToMsg mbf.ring
    let (msgs, mbf) ← mbfWakeup { mbf with ring }
    some (some .ok, ⟨msgs, [msg]⟩, mbf)
  else
    match mbf.gcb.waitQueue with
    | w :: q => do
      let (msgs, mbf) ← mbfWakeup { mbf with gcb.waitQueue := q }
      some (some .ok, ⟨w.winfo :: msgs, [w.winfo]⟩, mbf)
    | [] =>
      if tmout = 0 then some (some .tmout, idle, mbf)
      else some (none, idle, { mbf with recvQueue := mbf.recvQueue ++ [tskid] })

-- The wait of a task that sends ends otherwise.
def mbfRelWai (mbf : MbfCb) (tskid : Nat) : Result := do
  let (msgs, mbf) ← mbfWakeup { mbf with gcb := gcbWithout mbf.gcb tskid }
  some (none, ⟨msgs, []⟩, mbf)

def mbfChgPri (mbf : MbfCb) (w : Waiter (List UInt8)) (priority : Nat) : Result := do
  let (msgs, mbf) ← mbfWakeup { mbf with gcb := gcbChangePriority mbf.gcb w priority }
  some (none, ⟨msgs, []⟩, mbf)

-- There is no hook for a task that receives.
def rcvRelWai (mbf : MbfCb) (tskid : Nat) : Result :=
  some (none, idle, { mbf with recvQueue := mbf.recvQueue.filter (· ≠ tskid) })

inductive Call
  | snd (indp ddsp : Bool) (tskid priority : Nat) (masked : Bool) (msg : List UInt8) (tmout : Int)
  | rcv (ddsp : Bool) (tskid : Nat) (masked : Bool) (tmout : Int)
  | relWai (tskid : Nat)
  | rcvRelWai (tskid : Nat)
  | chgPri (w : Waiter (List UInt8)) (priority : Nat)

def exec (mbf : MbfCb) : Call → Result
  | .snd indp ddsp tskid priority masked msg tmout =>
    sndMbf mbf indp ddsp tskid priority masked msg tmout
  | .rcv ddsp tskid masked tmout => rcvMbf mbf ddsp tskid masked tmout
  | .relWai tskid => mbfRelWai mbf tskid
  | .rcvRelWai tskid => rcvRelWai mbf tskid
  | .chgPri w priority => mbfChgPri mbf w priority

-- A task that calls does not wait, and a new priority is for one that waits by priority.
def Call.Ready (mbf : MbfCb) : Call → Prop
  | .snd _ _ tskid .. => mbf.gcb.Lacks tskid
  | .rcv _ tskid .. => tskid ∉ mbf.recvQueue
  | .relWai _ => True
  | .rcvRelWai _ => True
  | .chgPri w _ => w ∈ mbf.gcb.waitQueue ∧ mbf.gcb.tpri = true

-- A message buffer with what went in and out since it is there
structure State where
  mbf : MbfCb
  accepted : List (List UInt8)
  delivered : List (List UInt8)

inductive Step : State → State → Prop
  | call (s : State) (c : Call) {ercd : Option Er} {t : Traffic} {mbf' : MbfCb}
      (hready : c.Ready s.mbf) (h : exec s.mbf c = some (ercd, t, mbf')) :
      Step s ⟨mbf', s.accepted ++ t.accepted, s.delivered ++ t.delivered⟩

-- All but that nobody waits in vain. The sizes are those of an INT.
structure Sound (mbf : MbfCb) (stored : List (List UInt8)) : Prop where
  holds : Holds mbf.ring stored
  receivers : mbf.recvQueue ≠ [] → stored = [] ∧ mbf.gcb.waitQueue = []
  once : mbf.recvQueue.Nodup
  size : mbf.ring.bufsz < 2 ^ 31
  max : mbf.maxmsz < 256 ^ HEADERSZ
  lengths : ∀ w ∈ mbf.gcb.waitQueue, w.winfo.length ≤ mbf.maxmsz
  orderly : mbf.gcb.Orderly

-- The first task that sends waits for more room than there is.
structure Good (mbf : MbfCb) (stored : List (List UInt8)) : Prop extends Sound mbf stored where
  quiet : ∀ w ∈ mbf.gcb.waitQueue.head?, mbfFree mbf.ring w.winfo.length = false

-- The call comes back or waits, and what it takes in goes behind what is there.
def Serves (r : Result) (stored : List (List UInt8)) : Prop :=
  ∃ ercd t mbf' stored', r = some (ercd, t, mbf') ∧ Good mbf' stored' ∧
    stored ++ t.accepted = t.delivered ++ stored'

section

variable {mbfcb mbf' : MbfCb} {stored : List (List UInt8)} {q : List (Waiter (List UInt8))}
  {ring : Ring} {s s' : State}

-- The loop puts the messages of the first tasks behind the others until one does not fit.
theorem serveQueue_store (h : Holds ring stored)
    (hq : ∀ w ∈ q, w.winfo.length < 256 ^ HEADERSZ) :
    ∃ ring' served left,
      serveQueue false canStore store (fun _ _ => false) (some ring) q =
        (some ring', served, left) ∧
      Holds ring' (stored ++ served.map Waiter.winfo) ∧ ring'.bufsz = ring.bufsz ∧
      q = served ++ left ∧
      ∀ w ∈ left.head?, mbfFree ring' w.winfo.length = false := by
  induction q generalizing ring stored with
  | nil => exact ⟨ring, [], [], rfl, by simpa using h, rfl, rfl, nofun⟩
  | cons w q ih =>
      rw [serveQueue]
      split
      · rename_i hcan
        obtain ⟨ring1, hput, hholds, hsize, _⟩ := msgToMbf_spec h (hq w List.mem_cons_self) hcan
        obtain ⟨ring', served, left, heq, hholds', hsize', hsplit, hfirst⟩ :=
          ih hholds fun x hx => hq x (List.mem_cons_of_mem w hx)
        have hstore : store (some ring) w = some ring1 := hput
        refine ⟨ring', w :: served, left, ?_, ?_, hsize'.trans hsize, ?_, hfirst⟩
        · rw [if_neg (by decide), hstore, heq]
        · rw [List.map_cons, List.append_cons]
          exact hholds'
        · rw [hsplit, List.cons_append]
      · rename_i hcan
        refine ⟨ring, [], w :: q, rfl, by simpa using h, rfl, rfl, ?_⟩
        intro x hx
        obtain rfl := Option.some.inj hx
        have hcan : ¬mbfFree ring w.winfo.length = true := hcan
        simpa using hcan

theorem Sound.wakeup (h : Sound mbfcb stored) :
    ∃ msgs mbf', mbfWakeup mbfcb = some (msgs, mbf') ∧ Good mbf' (stored ++ msgs) := by
  obtain ⟨ring', served, left, heq, hholds, hsize, hsplit, hfirst⟩ :=
    serveQueue_store h.holds fun w hw => (h.lengths w hw).trans_lt h.max
  have hsub : left.Sublist mbfcb.gcb.waitQueue := by
    rw [hsplit]
    exact List.sublist_append_right served left
  refine ⟨served.map Waiter.winfo, { mbfcb with ring := ring', gcb.waitQueue := left }, ?_,
    ⟨⟨hholds, ?_, h.once, hsize.trans_lt h.size, h.max, fun w hw => h.lengths w (hsub.subset hw),
      h.orderly.sublist hsub⟩, hfirst⟩⟩
  · rw [mbfWakeup, heq]
    rfl
  · intro hrecv
    obtain ⟨hnone, hnobody⟩ := h.receivers hrecv
    rw [hnobody] at hsplit
    obtain ⟨hserved, hleft⟩ := List.append_eq_nil_iff.mp hsplit.symm
    exact ⟨by rw [hnone, hserved]; rfl, hleft⟩

-- Nothing has changed.
theorem Good.stay (h : Good mbfcb stored) (ercd : Option Er) :
    Serves (some (ercd, idle, mbfcb)) stored :=
  ⟨ercd, idle, mbfcb, stored, rfl, h, List.append_nil stored⟩

theorem Good.snd {indp ddsp : Bool} {tskid priority : Nat} {masked : Bool} {tmout : Int}
    (h : Good mbfcb stored) (hrun : mbfcb.gcb.Lacks tskid) :
    Serves (sndMbf mbfcb indp ddsp tskid priority masked msg tmout) stored := by
  rw [sndMbf]
  split
  · exact h.stay _
  split
  · exact h.stay _
  split
  · exact h.stay _
  split
  · exact h.stay _
  rename_i hmax _
  split
  · rename_i tsk recvQueue hrecv
    obtain ⟨hnone, hnobody⟩ := h.receivers (by rw [hrecv]; nofun)
    have honce := h.once
    rw [hrecv] at honce
    refine ⟨_, _, _, [], rfl, ⟨⟨hnone ▸ h.holds, fun _ => ⟨rfl, hnobody⟩,
      (List.nodup_cons.mp honce).2, h.size, h.max, h.lengths, h.orderly⟩, h.quiet⟩, ?_⟩
    rw [hnone]
    rfl
  · rename_i hrecv
    split
    · rename_i hroom
      obtain ⟨ring', hput, hholds, hsize, hless⟩ :=
        msgToMbf_spec h.holds ((not_lt.mp hmax).trans_lt h.max) hroom.2
      rw [hput]
      refine ⟨_, _, _, stored ++ [msg], rfl, ⟨⟨hholds, fun hne => absurd hrecv hne, h.once,
        hsize.trans_lt h.size, h.max, h.lengths, h.orderly⟩, ?_⟩, rfl⟩
      intro w hw
      have hquiet := h.quiet w hw
      rw [mbfFree, decide_eq_false_iff_not] at hquiet ⊢
      dsimp only
      omega
    · rename_i hroom
      split
      · exact h.stay _
      · obtain ⟨ercd, _, heq⟩ | ⟨_, heq⟩ :=
          gcbMakeWaitWithDiswai_cases mbfcb.gcb masked ⟨tskid, priority, msg⟩ tmout
        · rw [heq]
          exact h.stay _
        · rw [heq]
          refine ⟨_, _, _, stored, rfl, ⟨⟨h.holds, fun hne => absurd hrecv hne, h.once, h.size,
            h.max, ?_, h.orderly.makeWait hrun⟩, ?_⟩, List.append_nil stored⟩
          · intro w hw
            obtain rfl | hw := mem_gcbMakeWait.mp hw
            · exact not_lt.mp hmax
            · exact h.lengths w hw
          · intro w hw
            obtain ⟨rfl, htop⟩ | hw := head_gcbMakeWait hw
            · by_contra hfree
              exact hroom ⟨.inr htop, by simpa using hfree⟩
            · exact h.quiet w hw

theorem Good.rcv {ddsp : Bool} {tskid : Nat} {masked : Bool} {tmout : Int}
    (h : Good mbfcb stored) (hrun : tskid ∉ mbfcb.recvQueue) :
    Serves (rcvMbf mbfcb ddsp tskid masked tmout) stored := by
  rw [rcvMbf]
  split
  · exact h.stay _
  split
  · exact h.stay _
  split
  · exact h.stay _
  split
  · rename_i hfull
    rw [mbfEmpty_iff h.holds] at hfull
    obtain ⟨msg, rest, rfl⟩ := List.exists_cons_of_ne_nil hfull
    obtain ⟨ring', hget, hholds, hsize⟩ := mbfToMsg_spec h.holds
    have hsound : Sound { mbfcb with ring := ring' } rest :=
      ⟨hholds, fun hne => absurd (h.receivers hne).1 hfull, h.once, hsize.trans_lt h.size, h.max,
        h.lengths, h.orderly⟩
    obtain ⟨msgs, mbf', hwake, hgood⟩ := hsound.wakeup
    rw [hget, Option.bind_eq_bind, Option.bind_some]
    dsimp only
    rw [hwake]
    exact ⟨_, _, _, _, rfl, hgood, rfl⟩
  · rename_i hempty
    rw [not_not, mbfEmpty_iff h.holds] at hempty
    subst hempty
    split
    · rename_i w q hq
      have hsub : q.Sublist mbfcb.gcb.waitQueue := by
        rw [hq]
        exact List.sublist_cons_self w q
      have hsound : Sound { mbfcb with gcb.waitQueue := q } [] :=
        ⟨h.holds, fun hne => absurd (h.receivers hne).2 (by rw [hq]; nofun), h.once, h.size, h.max,
          fun x hx => h.lengths x (hsub.subset hx), h.orderly.sublist hsub⟩
      obtain ⟨msgs, mbf', hwake, hgood⟩ := hsound.wakeup
      rw [hwake]
      exact ⟨_, _, _, _, rfl, hgood, rfl⟩
    · rename_i hq
      split
      · exact h.stay _
      · refine ⟨_, _, _, [], rfl, ⟨⟨h.holds, fun _ => ⟨rfl, hq⟩, ?_, h.size, h.max, h.lengths,
          h.orderly⟩, h.quiet⟩, rfl⟩
        exact List.nodup_append.mpr ⟨h.once, List.nodup_singleton tskid, by grind⟩

-- The queue of those who send has changed, and nobody came who has too long a message.
theorem Good.requeue {gcb : Gcb (List UInt8)} (h : Good mbfcb stored)
    (hsame : ∀ w ∈ gcb.waitQueue, ∃ x ∈ mbfcb.gcb.waitQueue, w.winfo = x.winfo)
    (horderly : gcb.Orderly) :
    Serves (do
      let (msgs, mbf) ← mbfWakeup { mbfcb with gcb }
      some (none, ⟨msgs, []⟩, mbf)) stored := by
  have hsound : Sound { mbfcb with gcb } stored := by
    refine ⟨h.holds, ?_, h.once, h.size, h.max, ?_, horderly⟩
    · intro hne
      obtain ⟨hnone, hnobody⟩ := h.receivers hne
      refine ⟨hnone, List.eq_nil_iff_forall_not_mem.mpr ?_⟩
      intro w hw
      obtain ⟨x, hx, _⟩ := hsame w hw
      rw [hnobody] at hx
      exact List.not_mem_nil hx
    · intro w hw
      obtain ⟨x, hx, heq⟩ := hsame w hw
      rw [heq]
      exact h.lengths x hx
  obtain ⟨msgs, mbf', hwake, hgood⟩ := hsound.wakeup
  rw [hwake]
  exact ⟨_, _, _, _, rfl, hgood, rfl⟩

theorem Good.exec (h : Good mbfcb stored) (c : Call) (hready : c.Ready mbfcb) :
    Serves (exec mbfcb c) stored := by
  cases c with
  | snd indp ddsp tskid priority masked msg tmout => exact h.snd hready
  | rcv ddsp tskid masked tmout => exact h.rcv hready
  | relWai tskid =>
      exact h.requeue (fun w hw => ⟨w, mem_gcbWithout hw, rfl⟩) (h.orderly.without tskid)
  | chgPri w priority =>
      refine h.requeue ?_ (h.orderly.changePriority hready.2)
      intro x hx
      obtain rfl | hx := mem_gcbChangePriority hx
      · exact ⟨w, hready.1, rfl⟩
      · exact ⟨x, hx, rfl⟩
  | rcvRelWai tskid =>
      refine ⟨_, _, _, stored, rfl, ⟨⟨h.holds, ?_, h.once.filter _, h.size, h.max, h.lengths,
        h.orderly⟩, h.quiet⟩, List.append_nil stored⟩
      intro hne
      refine h.receivers ?_
      rintro heq
      exact hne (by rw [heq]; rfl)

theorem good_creMbf {tpri nodiswai : Bool} {bufsz maxmsz : Int} {buffer : Nat → UInt8}
    (hsize : bufsz ≤ 2 ^ 31 - 4) (hmax : maxmsz < 256 ^ HEADERSZ)
    (hcre : creMbf tpri nodiswai bufsz maxmsz buffer = .inr mbfcb) :
    Good mbfcb [] := by
  rw [creMbf] at hcre
  split at hcre
  · obtain rfl := Sum.inr.inj hcre
    refine ⟨⟨holds_creRing _ _, nofun, List.nodup_nil, ?_, ?_, nofun,
      ⟨List.nodup_nil, fun _ => .nil⟩⟩, nofun⟩
    · dsimp only [creRing, ROUNDSZ]
      omega
    · dsimp only
      rw [HEADERSZ] at hmax ⊢
      omega
  · cases hcre

def Queued (s : State) : Prop :=
  ∃ stored, Good s.mbf stored ∧ s.accepted = s.delivered ++ stored

theorem queued_step (h : Queued s) (hstep : Step s s') : Queued s' := by
  obtain ⟨stored, hgood, hfifo⟩ := h
  cases hstep with
  | call c hready hexec =>
      obtain ⟨ercd, t, mbf', stored', heq, hgood', htraffic⟩ := hgood.exec c hready
      rw [hexec] at heq
      obtain ⟨rfl, rfl, rfl⟩ : _ = ercd ∧ _ = t ∧ _ = mbf' := by simpa using heq
      refine ⟨stored', hgood', ?_⟩
      dsimp only
      rw [hfifo, List.append_assoc, htraffic, List.append_assoc]

-- In every run each message that went in comes out once, byte for byte and in the order they went
-- in, or it is still in the buffer. A task waits to receive only where there is nothing to
-- receive, and to send only where there is no room. No call copies over the bounds.
theorem messagebuffer_run {tpri nodiswai : Bool} {bufsz maxmsz : Int} {buffer : Nat → UInt8}
    (hsize : bufsz ≤ 2 ^ 31 - 4) (hmax : maxmsz < 2 ^ 31)
    (hcre : creMbf tpri nodiswai bufsz maxmsz buffer = .inr mbfcb)
    (hrun : Relation.ReflTransGen Step ⟨mbfcb, [], []⟩ s) :
    ∃ stored, Holds s.mbf.ring stored ∧ s.accepted = s.delivered ++ stored ∧
      (s.mbf.recvQueue ≠ [] → stored = [] ∧ s.mbf.gcb.waitQueue = []) ∧
      (∀ w ∈ s.mbf.gcb.waitQueue.head?, mbfFree s.mbf.ring w.winfo.length = false) ∧
      s.mbf.gcb.Orderly ∧ s.mbf.recvQueue.Nodup ∧ s.mbf.ring.bufsz < 2 ^ 31 ∧
      ∀ c : Call, c.Ready s.mbf → (exec s.mbf c).isSome := by
  have hstart : Queued ⟨mbfcb, [], []⟩ :=
    ⟨[], good_creMbf hsize (hmax.trans (by decide)) hcre, rfl⟩
  obtain ⟨stored, h, hfifo⟩ :=
    run_preserves (P := Queued) (fun _ _ h hstep => queued_step h hstep) hstart hrun
  refine ⟨stored, h.holds, hfifo, h.receivers, h.quiet, h.orderly, h.once, h.size, ?_⟩
  intro c hready
  obtain ⟨_, _, _, _, heq, _⟩ := h.exec c hready
  rw [heq]
  rfl

-- The second message waits for room, and it comes in over the end when the first has gone.
theorem messagebuffer_run_wraps : ∃ stored : List (List UInt8),
    [[1, 2, 3, 4, 5], [6, 7]] = [[1, 2, 3, 4, 5]] ++ stored := by
  have hcre : creMbf false false 14 5 (fun _ => 0) =
      .inr ⟨⟨[], false, false⟩, [], 5, creRing 14 fun _ => 0⟩ := rfl
  have hfirst := Step.call ⟨⟨⟨[], false, false⟩, [], 5, creRing 14 fun _ => 0⟩, [], []⟩
    (.snd false false 1 3 false [1, 2, 3, 4, 5] (-1)) (fun _ hw => absurd hw List.not_mem_nil)
    (rfl : exec _ _ = some (_, _, _))
  have hsecond := Relation.ReflTransGen.tail (.single hfirst)
    (Step.call _ (.snd false false 2 3 false [6, 7] (-1)) (fun _ hw => absurd hw List.not_mem_nil)
      (rfl : exec _ _ = some (_, _, _)))
  have hthird := Relation.ReflTransGen.tail hsecond
    (Step.call _ (.rcv false 1 false (-1)) List.not_mem_nil (rfl : exec _ _ = some (_, _, _)))
  obtain ⟨stored, _, hfifo, _⟩ := messagebuffer_run (by decide) (by decide) hcre hthird
  exact ⟨stored, hfifo⟩

end

end BTron.TKernel.MessageBuffer
