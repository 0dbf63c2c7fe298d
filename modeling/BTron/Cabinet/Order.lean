import BTron.Cabinet
import BTron.Cabinet.Sort

namespace BTron.Cabinet

open Lib

-- CABINET_EXPLORER with its items. `named` is the last sort command, which the code does not keep.
structure Shelf where
  cab : Explorer
  items : List Item
  named : Option Int

-- The files that a rescan reads are as many as there is room for.
def MAX_CABINET_ITEMS : Nat := 128

-- the list that is built in
def fallbackItems : List Item :=
  [⟨101, utf8 "01_btron3_spec.tad", utf8 "tad_bin/01_btron3_spec.tad", 3996, utf8 "[doc]"⟩,
    ⟨102, utf8 "02_tkernel_book.tad", utf8 "tad_bin/02_tkernel_book.tad", 1745,
      utf8 "[t-kernel]"⟩,
    ⟨103, utf8 "03_bfree_os_book.tad", utf8 "tad_bin/03_bfree_os_book.tad", 1472,
      utf8 "[b-free]"⟩,
    ⟨111, utf8 "01_data_type.tad", utf8 "tad_bin/shared_data/data_type.tad", 10022,
      utf8 "[doc]"⟩]

def discovered (found : List Item) : List Item :=
  if found = [] then fallbackItems else found.take MAX_CABINET_ITEMS

def foundEnv (found : List Item) : Env := ⟨(found.take MAX_CABINET_ITEMS).length, false⟩

-- `cabinet_init_defaults` as the window is opened
def openCabinet (abi : Abi) (cab : Explorer) (found : List Item) : Option Shelf :=
  let cab := cabinetInitDefaults cab (foundEnv found).found
  (cabinetSortItems abi cab.sortMode (discovered found)).map fun items => ⟨cab, items, none⟩

def sortCmds : List Int :=
  [CCMD_VIEW_SORT_NAME, CCMD_VIEW_SORT_DATE, CCMD_VIEW_SORT_SIZE, CCMD_VIEW_SORT_TYPE]

-- A command of the menu, where a rescan would find `found`, or what the keys and the mouse do to
-- the selection.
inductive ShelfEvt
  | menu (cmd : Int) (found : List Item)
  | select (idx : Int)

def Shelf.menu (abi : Abi) (st : Shelf) (cmd : Int) (found : List Item) : Option Shelf :=
  let cab := st.cab.command (foundEnv found) cmd
  if cmd ∈ sortCmds then
    (cabinetSortItems abi cab.sortMode st.items).map fun items => ⟨cab, items, some cmd⟩
  else if cmd = CCMD_VIEW_REFRESH then
    (cabinetSortItems abi cab.sortMode (discovered found)).map fun items => ⟨cab, items, st.named⟩
  else some { st with cab := cab }

def Shelf.step (abi : Abi) (st : Shelf) : ShelfEvt → Option Shelf
  | .menu cmd found => st.menu abi cmd found
  | .select idx => some { st with cab := { st.cab with selectedIdx := idx } }

def Shelves (abi : Abi) (st : Shelf) (evt : ShelfEvt) (st' : Shelf) : Prop :=
  st.step abi evt = some st'

def Shelf.selected (st : Shelf) : Option Item :=
  if st.cab.selectedIdx < 0 then none else st.items[st.cab.selectedIdx.toNat]?

-- The sort mode whose key a command names: its number in `cabinet_sort_items`.
def modeNamed (cmd : Int) : Int :=
  if cmd = CCMD_VIEW_SORT_NAME then 1
  else if cmd = CCMD_VIEW_SORT_DATE then 2
  else if cmd = CCMD_VIEW_SORT_SIZE then 3
  else 0

-- The sort mode that the handler stores.
def modeStored (cmd : Int) : Int :=
  if cmd = CCMD_VIEW_SORT_NAME then 0
  else if cmd = CCMD_VIEW_SORT_DATE then 1
  else if cmd = CCMD_VIEW_SORT_SIZE then 2
  else 3

def Ordered (abi : Abi) (cmd : Int) (items : List Item) : Prop :=
  items.Pairwise fun a b => ¬ Before abi (modeNamed cmd) b a

-- The items are in the order that the last sort command named.
def Shelf.Shows (abi : Abi) (st : Shelf) : Prop := ∀ cmd ∈ st.named, Ordered abi cmd st.items

-- What the key named tells apart, the sort by this mode tells apart the same way.
def Agrees (abi : Abi) (sortMode cmd : Int) (items : List Item) : Prop :=
  ∀ a ∈ items, ∀ b ∈ items, Before abi (modeNamed cmd) a b → Before abi sortMode a b

-- The item at the place of `x` goes there again: the list is in order, or as many items go before
-- `x` as stand before it, and no other goes with it.
def StaysAt (abi : Abi) (sortMode : Int) (items : List Item) (idx : Nat) (x : Item) : Prop :=
  items.Pairwise (fun a b => swapItems abi sortMode a b = some false) ∨
    (items.countP fun b => swapItems abi sortMode x b = some true) = idx ∧
      (items.countP fun b => swapItems abi sortMode x b ≠ some true ∧
        swapItems abi sortMode b x ≠ some true) = 1

-- The steps that a sort by the wrong key, or of which the selection knows nothing, does no harm.
def Meets (abi : Abi) (st : Shelf) : ShelfEvt → Prop
  | .menu cmd found =>
    if cmd ∈ sortCmds then
      Comparable abi (modeStored cmd) st.items ∧ Agrees abi (modeStored cmd) cmd st.items ∧
        ∀ x ∈ st.selected, StaysAt abi (modeStored cmd) st.items st.cab.selectedIdx.toNat x
    else if cmd = CCMD_VIEW_REFRESH then
      Comparable abi 0 (discovered found) ∧
        ∀ named ∈ st.named, Agrees abi 0 named (discovered found)
    else True
  | .select _ => True

variable {abi : Abi} {st st' : Shelf} {sortMode cmd : Int} {items out found : List Item}
  {a b : Item} {evt : ShelfEvt}

theorem command_sortMode (cab : Explorer) (env : Env) (hcmd : cmd ∈ sortCmds) :
    cab.command env cmd = { cab with sortMode := modeStored cmd } := by
  simp only [sortCmds, List.mem_cons, List.not_mem_nil, or_false] at hcmd
  obtain rfl | rfl | rfl | rfl := hcmd
  all_goals rfl

theorem command_refresh (cab : Explorer) (env : Env) :
    cab.command env CCMD_VIEW_REFRESH = cabinetInitDefaults cab env.found := rfl

-- A sort by another key leaves the order of the key named where the two agree.
theorem ordered_of_agrees (hperm : out.Perm items)
    (hout : out.Pairwise fun a b => ¬ Before abi sortMode b a) (h : Agrees abi sortMode cmd items) :
    Ordered abi cmd out := by
  refine hout.imp_of_mem fun {a b} ha hb hab hba => ?_
  exact hab (h b (hperm.subset hb) a (hperm.subset ha) hba)

theorem before_irrefl (a : Item) : ¬ Before abi sortMode a a := by
  obtain ⟨κ, _, key, hkey⟩ := exists_key abi sortMode
  rw [hkey]
  exact lt_irrefl _

-- Of two items of the list the comparison tells which one goes before the other.
theorem swapItems_comparable (hcomp : Comparable abi sortMode items) {a b : Item}
    (ha : a ∈ items) (hb : b ∈ items) :
    swapItems abi sortMode a b = some true ↔ Before abi sortMode b a := by
  constructor
  · intro h
    exact (swapItems_before h).mp rfl
  · intro hbefore
    have hne : a ≠ b := by
      rintro rfl
      exact before_irrefl a hbefore
    have hsymm : Std.Symm fun a b => (swapItems abi sortMode a b).isSome = true ∧
        (swapItems abi sortMode b a).isSome = true := ⟨fun _ _ h => ⟨h.2, h.1⟩⟩
    obtain ⟨r, hr⟩ := Option.isSome_iff_exists.mp (hcomp.forall ha hb hne).1
    rw [hr, (swapItems_before hr).mpr hbefore]

theorem stays {idx : Nat} {x : Item} (hcomp : Comparable abi sortMode items)
    (hx : items[idx]? = some x) (hstay : StaysAt abi sortMode items idx x)
    (hout : cabinetSortItems abi sortMode items = some out) : out[idx]? = some x := by
  rw [cabinetSortItems_eq] at hout
  obtain hordered | ⟨hfront, hone⟩ := hstay
  · obtain rfl := Option.some.inj ((exchangeSort_ordered hordered).symm.trans hout)
    exact hx
  · have hmem : x ∈ items := List.mem_of_getElem? hx
    obtain ⟨κ, _, key, hkey⟩ := exists_key abi sortMode
    obtain ⟨out', hout', hperm, hsorted⟩ := exchangeSort_spec (swapsBy_comparable hkey hcomp)
    obtain rfl := Option.some.inj (hout'.symm.trans hout)
    have hlt : ∀ b ∈ out', decide (swapItems abi sortMode x b = some true) = true ↔
        key b < key x := by
      intro b hb
      rw [decide_eq_true_iff, swapItems_comparable hcomp hmem (hperm.subset hb), hkey]
    have heq : ∀ b ∈ out', decide (swapItems abi sortMode x b ≠ some true ∧
        swapItems abi sortMode b x ≠ some true) = true ↔ key b = key x := by
      intro b hb
      rw [decide_eq_true_iff, ne_eq, ne_eq, swapItems_comparable hcomp hmem (hperm.subset hb),
        swapItems_comparable hcomp (hperm.subset hb) hmem, hkey, hkey, not_lt, not_lt,
        le_antisymm_iff, and_comm]
    rw [← hperm.countP_eq] at hfront hone
    rw [← hfront]
    exact getElem?_sorted hsorted (hperm.symm.subset hmem) hlt heq hone

-- A sort command that meets the condition
theorem menu_sort (hcmd : cmd ∈ sortCmds) (h : Meets abi st (.menu cmd found)) :
    ∃ items, st.menu abi cmd found =
        some ⟨{ st.cab with sortMode := modeStored cmd }, items, some cmd⟩ ∧
      Ordered abi cmd items ∧
        ∀ x ∈ st.selected, items[st.cab.selectedIdx.toNat]? = some x := by
  rw [Meets, if_pos hcmd] at h
  obtain ⟨hcomp, hagrees, hstay⟩ := h
  obtain ⟨out, hout, hperm, hsorted⟩ := cabinetSortItems_spec hcomp
  refine ⟨out, ?_, ordered_of_agrees hperm hsorted hagrees, fun x hx => ?_⟩
  · rw [Shelf.menu, command_sortMode _ _ hcmd]
    dsimp only
    rw [if_pos hcmd, hout, Option.map_some]
  · have hidx : st.items[st.cab.selectedIdx.toNat]? = some x := by
      rw [Option.mem_def, Shelf.selected] at hx
      split at hx
      · exact absurd hx nofun
      · exact hx
    exact stays hcomp hidx (hstay x hx) hout

-- A rescan that meets the condition
theorem menu_refresh (h : Meets abi st (.menu CCMD_VIEW_REFRESH found)) :
    ∃ st', st.menu abi CCMD_VIEW_REFRESH found = some st' ∧ st'.Shows abi := by
  rw [Meets, if_neg (by decide), if_pos rfl] at h
  obtain ⟨hcomp, hagrees⟩ := h
  obtain ⟨out, hout, hperm, hsorted⟩ := cabinetSortItems_spec hcomp
  refine ⟨⟨cabinetInitDefaults st.cab (foundEnv found).found, out, st.named⟩, ?_, ?_⟩
  · rw [Shelf.menu, command_refresh, if_neg (by decide), if_pos rfl]
    exact congrArg (Option.map _) hout
  · exact fun named hnamed => ordered_of_agrees hperm hsorted (hagrees named hnamed)

theorem step_meets (hshows : st.Shows abi) (h : Meets abi st evt) :
    ∃ st', Shelves abi st evt st' ∧ st'.Shows abi ∧
      ∀ cmd found, evt = .menu cmd found → cmd ∈ sortCmds →
        ∀ x ∈ st.selected, x ∈ st'.selected := by
  cases evt with
  | select idx => exact ⟨_, rfl, hshows, nofun⟩
  | menu cmd found =>
      by_cases hsort : cmd ∈ sortCmds
      · obtain ⟨items, hmenu, hordered, hkept⟩ := menu_sort hsort h
        refine ⟨_, hmenu, ?_, ?_⟩
        · rintro cmd' hnamed
          obtain rfl := Option.some.inj hnamed
          exact hordered
        · rintro _ _ - - x hx
          have hx' := hx
          rw [Option.mem_def, Shelf.selected] at hx' ⊢
          split at hx'
          · exact absurd hx' nofun
          · next hpos =>
              rw [if_neg hpos]
              exact hkept x hx
      · by_cases hrefresh : cmd = CCMD_VIEW_REFRESH
        · obtain rfl := hrefresh
          obtain ⟨st', hmenu, hshows'⟩ := menu_refresh h
          refine ⟨st', hmenu, hshows', ?_⟩
          rintro _ _ heq hcmd
          obtain ⟨rfl, -⟩ := ShelfEvt.menu.inj heq
          exact absurd hcmd hsort
        · refine ⟨{ st with cab := st.cab.command (foundEnv found) cmd }, ?_, hshows, ?_⟩
          · rw [Shelves, Shelf.step, Shelf.menu, if_neg hsort, if_neg hrefresh]
          · rintro _ _ heq hcmd
            obtain ⟨rfl, -⟩ := ShelfEvt.menu.inj heq
            exact absurd hcmd hsort

-- In a run of which every step meets the condition, the cabinet shows the order asked for, and a
-- sort command leaves the selection on its item.
theorem cabinet_shows_order {cab : Explorer} {s₀ : Shelf} {tr : List (Shelf × ShelfEvt)}
    (hopen : openCabinet abi cab found = some s₀) (htr : Trace (Shelves abi) s₀ tr st)
    (hmeets : ∀ t ∈ tr, Meets abi t.1 t.2) :
    st.Shows abi ∧ ∀ evt, Meets abi st evt → ∃ st', Shelves abi st evt st' ∧ st'.Shows abi ∧
      ∀ cmd found, evt = .menu cmd found → cmd ∈ sortCmds →
        ∀ x ∈ st.selected, x ∈ st'.selected := by
  have hstart : s₀.Shows abi := by
    obtain ⟨items, -, rfl⟩ := Option.map_eq_some_iff.mp hopen
    exact nofun
  have hshows : st.Shows abi := by
    refine htr.preserves hstart (fun s evt s' hs hm hstep => ?_) hmeets
    obtain ⟨s'', hstep'', hs'', -⟩ := step_meets hs hm
    obtain rfl := Option.some.inj (hstep''.symm.trans hstep)
    exact hs''
  exact ⟨hshows, fun evt hevt => step_meets hshows hevt⟩

instance : Decidable (Before abi sortMode a b) := inferInstanceAs (Decidable (ite ..))

def lp64 : Abi := ⟨true, 2 ^ 63 - 1⟩

def emptyCabinet : Explorer := ⟨0, 0, 0, 0, false, 0, .zero, -1, 0⟩

def manifest : Item :=
  ⟨106, utf8 "manifest.tad", utf8 "tad_bin/b-free/manifest.tad", 4200, utf8 "[b-free]"⟩

def virtio : Item :=
  ⟨107, utf8 "virtio.tad", utf8 "tad_bin/b-system/virtio.tad", 3100, utf8 "[b-system]"⟩

def dataType : Item :=
  ⟨111, utf8 "data_type.tad", utf8 "tad_bin/shared_data/data_type.tad", 10022, utf8 "[doc]"⟩

-- All four keys put these two the same way round.
theorem cabinet_shows_order_date : ∃ s₀ st,
    openCabinet lp64 emptyCabinet [virtio, manifest] = some s₀ ∧
    Trace (Shelves lp64) s₀ [(s₀, .menu CCMD_VIEW_SORT_DATE [])] st ∧
      st.named = some CCMD_VIEW_SORT_DATE ∧ st.Shows lp64 := by
  have hopen : openCabinet lp64 emptyCabinet [virtio, manifest] =
      some ⟨cabinetInitDefaults emptyCabinet 2, [manifest, virtio], none⟩ := rfl
  have hsort : Shelves lp64 ⟨cabinetInitDefaults emptyCabinet 2, [manifest, virtio], none⟩
      (.menu CCMD_VIEW_SORT_DATE []) _ := rfl
  have hmeets : Meets lp64 ⟨cabinetInitDefaults emptyCabinet 2, [manifest, virtio], none⟩
      (.menu CCMD_VIEW_SORT_DATE []) := by
    refine ⟨?_, ?_, ?_⟩
    · rw [Comparable]
      decide
    · rw [Agrees]
      decide
    · exact fun x _ => .inl (by decide)
  have htr := Trace.start.next hsort
  refine ⟨_, _, hopen, htr, rfl, (cabinet_shows_order hopen htr ?_).1⟩
  rw [List.forall_mem_singleton]
  exact hmeets

-- "Sort by Date" puts data_type.tad before manifest.tad, by their names, and the selection goes
-- from manifest.tad, the first item before, to data_type.tad.
theorem date_sorts_by_name : ∃ s₀ st,
    openCabinet lp64 emptyCabinet [dataType, manifest] = some s₀ ∧
    Trace (Shelves lp64) s₀ [(s₀, .menu CCMD_VIEW_SORT_DATE [])] st ∧ ¬ st.Shows lp64 ∧
      s₀.selected = some manifest ∧ st.selected = some dataType := by
  have hopen : openCabinet lp64 emptyCabinet [dataType, manifest] =
      some ⟨cabinetInitDefaults emptyCabinet 2, [manifest, dataType], none⟩ := rfl
  have hsort : Shelves lp64 ⟨cabinetInitDefaults emptyCabinet 2, [manifest, dataType], none⟩
      (.menu CCMD_VIEW_SORT_DATE []) ⟨{ cabinetInitDefaults emptyCabinet 2 with sortMode := 1 },
        [dataType, manifest], some CCMD_VIEW_SORT_DATE⟩ := rfl
  refine ⟨_, _, hopen, .next .start hsort, fun hshows => ?_, rfl, rfl⟩
  have hordered := hshows _ rfl
  rw [Ordered, List.pairwise_pair] at hordered
  exact hordered (by decide)

end BTron.Cabinet
