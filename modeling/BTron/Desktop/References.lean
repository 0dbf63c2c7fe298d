import BTron.Desktop.Growth
import BTron.Lib.Run
import BTron.Tracker.Hover

namespace BTron.Desktop

open Lib Window
open Chat (Alloc Client WndContext DIALOG_WINDOW)

section Windows

variable {wnds wnds' : WndMgr} {w z : Nat} {er : ER}

instance : Decidable (wnds.Listed w) := inferInstanceAs (Decidable (_ = some true))

theorem listed_iff_live {ps : List Nat} (h : Represents wnds ps) :
    wnds.Listed w ↔ wnds.mem w ≠ none := by
  rw [listed_iff h, h.live]

theorem listFrom_live {fuel : Nat} {q : Option Nat} {l : List Tracker.Listed}
    (h : listFrom wnds fuel q = some l) : ∀ x ∈ l, wnds.mem x.wnd ≠ none := by
  induction fuel generalizing q l with
  | zero => cases h
  | succ fuel ih =>
      cases q with
      | none =>
          cases h
          simp
      | some p =>
          obtain ⟨wnd, hwnd, h⟩ := Option.bind_eq_some_iff.mp h
          obtain ⟨rest, hrest, h⟩ := Option.bind_eq_some_iff.mp h
          cases h
          rw [List.forall_mem_cons]
          exact ⟨by simp [hwnd], ih hrest⟩

theorem contextOf_live {a : Nat} (h : contextOf wnds w = some a) : wnds.mem w ≠ none := by
  obtain ⟨v, hv, -⟩ := Option.bind_eq_some_iff.mp h
  simp [hv]

-- A write to other fields than these leaves what the chat knows of its windows.
theorem contextOf_write {p : Nat} {f : Wnd → Wnd} (h : wnds.write p f = some wnds')
    (hf : ∀ v, (f v).eventHandler = v.eventHandler ∧ (f v).userData = v.userData) (z : Nat) :
    contextOf wnds' z = contextOf wnds z := by
  rw [WndMgr.write, Option.map_eq_some_iff] at h
  obtain ⟨-, -, rfl⟩ := h
  rw [contextOf, contextOf, WndMgr.put_mem]
  split
  · cases wnds.mem z with
    | none => rfl
    | some v => simp [isChat, hf v]
  · rfl

theorem write_live {p : Nat} {f : Wnd → Wnd} (h : wnds.write p f = some wnds') (z : Nat) :
    wnds'.mem z = none ↔ wnds.mem z = none := by
  rw [WndMgr.write, Option.map_eq_some_iff] at h
  obtain ⟨-, -, rfl⟩ := h
  exact WndMgr.put_live

-- A window that is closed takes no other one along.
theorem clsWnd_spec {ps : List Nat} {hook : Hook} (h : Represents wnds ps)
    (hkeep : KeepsChat wnds hook) (hcls : clsWnd wnds (some w) hook = some (wnds', er)) :
    (∃ ps', Represents wnds' ps') ∧ (∀ z, wnds'.mem z ≠ none ↔ wnds.mem z ≠ none ∧ z ≠ w) ∧
      ∀ z a, contextOf wnds' z = some a → contextOf wnds z = some a := by
  have hbody := hcls
  rw [clsWnd] at hbody
  obtain ⟨v, hv, hbody⟩ := Option.bind_eq_some_iff.mp hbody
  obtain ⟨ps', h', hmem⟩ := cls_mem h (by simp [hv]) hkeep.1 hcls
  refine ⟨⟨ps', h'⟩, fun z => by rw [h'.live, h.live, hmem], ?_⟩
  -- what the destroy hook leaves
  dsimp only at hbody
  generalize hhooked : (if v.destroy ≠ 0 then { wnds with mem := hook wnds.mem } else wnds) = s₁
    at hbody
  have hctx₁ : ∀ z, contextOf s₁ z = contextOf wnds z := by
    rw [← hhooked]
    split
    · exact hkeep.2
    · exact fun _ => rfl
  simp only [Option.bind_eq_bind, Option.bind_eq_some_iff] at hbody
  obtain ⟨s₂, hunlink, u, -, s₄, hfocus, hbody⟩ := hbody
  cases hbody
  have hbare : SameBare s₁ s₄ := by
    have hlinks := sameBare_unlink hunlink
    have hhead := sameBare_writeIf hfocus fun _ => rfl
    intro z
    rw [hhead z, ← hlinks z]
    split <;> rfl
  intro z a ha
  rw [← hctx₁ z, ← contextOf_bare hbare z]
  by_cases hz : z = w
  · simp [contextOf, WndMgr.free, hz] at ha
  · rw [contextOf, WndMgr.free] at ha
    simpa [hz, contextOf] using ha

end Windows

-- What holds of the desktop at all times.
structure Holds (d : Desktop) : Prop where
  chat : Sound d.chat
  tracker : Tracker.Menu d.tracker
  items : ∀ w, Targets d.tracker w → d.chat.wnds.mem w ≠ none

theorem client_isSome {s : Chat} {p : Nat} :
    (s.client p).isSome ↔ p ∈ s.clients.map Prod.fst := by
  constructor
  · intro h
    obtain ⟨c, hc⟩ := Option.isSome_iff_exists.mp h
    exact registered_of_client hc
  · intro h
    rw [Chat.client]
    by_contra hnone
    rw [Option.not_isSome_iff_eq_none, List.lookup_eq_none_iff] at hnone
    obtain ⟨c, hc, rfl⟩ := List.mem_map.mp h
    simpa using hnone c hc

theorem Holds.valid {d : Desktop} (h : Holds d) : Valid d := by
  obtain ⟨ps, hps⟩ := h.chat.list
  refine ⟨fun c hc w hw => (listed_iff_live hps).mpr (h.chat.kept c hc w hw),
    fun w hw => (listed_iff_live hps).mpr (h.items w hw), fun w a _ ha => ?_⟩
  obtain ⟨ctx, hctx, hmem⟩ := h.chat.contexts w a ha
  exact ⟨ctx, hctx, client_isSome.mpr hmem⟩

-- What a step that closes nothing leaves.
structure Lives (s s' : Chat) : Prop where
  sound : Sound s'
  live : ∀ w, s.wnds.mem w ≠ none → s'.wnds.mem w ≠ none

theorem Chat.Grows.lives {a : Alloc} {s s' : Chat} (h : Grows a s s') : Lives s s' :=
  ⟨h.sound, h.live⟩

section Tracker

open Tracker (Listed Menu Outcome menuOf trackerRefreshWindows trackerOpenMenu)

variable {t t' : Tracker} {wnds : List Listed} {w : Nat}

theorem menuOf_target {it : Tracker.Item} (hit : it ∈ menuOf wnds) (hw : it.targetWnd = some w) :
    ∃ x ∈ wnds, x.wnd = w := by
  simp only [menuOf, List.mem_append, List.mem_map] at hit
  rcases hit with ⟨x, -, rfl⟩ | ⟨x, hx, rfl⟩ | hmid | ⟨x, -, rfl⟩
  · cases hw
  · exact ⟨x, List.mem_of_mem_take hx, Option.some.inj hw⟩
  · split at hmid
    · cases hmid
    · rw [List.mem_singleton.mp hmid] at hw
      cases hw
  · cases hw

-- A menu shows the windows it showed, or those of the list it was built from.
theorem Outcome.targets (h : Menu t) (hout : Outcome t wnds t') (hw : Targets t' w) :
    Targets t w ∨ ∃ x ∈ wnds, x.wnd = w := by
  cases hout with
  | keeps => exact .inl hw
  | glides st _ hst => exact absurd hw.1 hst
  | hovers => exact .inl hw
  | closes => cases hw.1
  | opens =>
      obtain ⟨-, it, hit, -, hitw⟩ := hw
      rw [(Tracker.menu_openMenu h wnds).1.rows_eq] at hit
      exact .inr (menuOf_target hit hitw)

theorem exec_targets (h : Menu t) {c : Tracker.Call} (hw : Targets (Tracker.exec t wnds c) w) :
    Targets t w ∨ ∃ x ∈ wnds, x.wnd = w := by
  by_cases hc : c = .refreshWindows
  · subst hc
    obtain ⟨-, it, hit, -, hitw⟩ := hw
    rw [Tracker.exec, (Tracker.menu_refresh h wnds).1.rows_eq] at hit
    exact .inr (menuOf_target hit hitw)
  · exact Outcome.targets h (Tracker.exec_outcome h wnds hc) hw

theorem executeItem_target {idx i : Int} (hopen : t.state = .open)
    (h : (Tracker.trackerExecuteItem t idx).2 = some (i, .topWnd w)) : Targets t w := by
  rw [Tracker.trackerExecuteItem] at h
  split at h
  · cases h
  rename_i hrange
  dsimp only at h
  split at h
  · cases h
  rename_i henabled
  rw [Option.some.injEq, Prod.mk.injEq] at h
  refine ⟨hopen, t.items idx.toNat, ?_, by simpa using henabled, ?_⟩
  · exact List.mem_map_of_mem (List.mem_range.mpr (by omega))
  · have haction := h.2
    rw [Tracker.Item.action] at haction
    split at haction
    all_goals try cases haction
    split at haction
    · rename_i hwnd
      cases haction
      exact hwnd
    · cases haction

theorem executed_target {c : Tracker.Call} {i : Int}
    (h : executed t wnds c = some (i, .topWnd w)) : Targets t w := by
  cases c with
  | mouseDown x y =>
      rw [executed, Tracker.trackerHandleMouseDown] at h
      split at h
      · cases h
      split at h
      · rename_i hopen
        split at h
        · exact executeItem_target (by simpa [Tracker.trackerIsMenuOpen] using hopen) h
        · cases h
      · cases h
  | key code =>
      rw [executed, Tracker.trackerHandleKey] at h
      split at h
      · cases h
      split at h
      · cases h
      rename_i hopen
      split at h
      · cases h
      split at h
      · cases h
      split at h
      · cases h
      split at h
      · split at h
        · exact executeItem_target (by simpa [Tracker.trackerIsMenuOpen] using hopen) h
        · cases h
      · cases h
  | _ => cases h

end Tracker

section Chat

variable {s s' : Chat}

theorem Lives.trans {t : Chat} (h : Lives s s') (h' : Lives s' t) : Lives s t :=
  ⟨h'.sound, fun w hw => h'.live w (h.live w hw)⟩

theorem launchBeosChat_lives (h : Sound s) {l : Launch} (hl : l.Legal s) {wnd : Option Nat}
    (hs : Chat.launchBeosChat s l.client l.time l.roster l.muc = some (s', wnd)) :
    Lives s s' := by
  obtain ⟨⟨t, client⟩, ht, hs⟩ := Option.bind_eq_some_iff.mp hs
  have hregister := chatIpcRegisterClient_grows noAlloc h hl.client ht
  dsimp only at hs
  split at hs
  · cases hs
    exact Chat.Grows.lives hregister
  · obtain ⟨⟨u, roster⟩, hu, hs⟩ := Option.bind_eq_some_iff.mp hs
    obtain ⟨⟨v, muc⟩, hv, hs⟩ := Option.bind_eq_some_iff.mp hs
    cases hs
    have hroster := openChatMainWindow_grows hregister.sound (hregister.keeps_fresh hl.roster) hu
    have hfresh := hroster.fresh (hregister.keeps_fresh hl.muc) hl.wnds hl.ctxs
    have hmuc := openChatMucWindow_grows hroster.sound hfresh hv
    exact (Chat.Grows.lives hregister).trans
      ((Chat.Grows.lives hroster).trans (Chat.Grows.lives hmuc))

-- A window that is selected comes to the front, where it has the focus already.
theorem select_lives (h : Sound s) {w : Nat} (hw : s.wnds.mem w ≠ none) {wnds wnds' : WndMgr}
    {er : ER} (htop : topWnd s.wnds (some w) = some (wnds, er))
    (hfocus : wnds.write w (fun v => { v with focused := true }) = some wnds') :
    Lives s { s with wnds := wnds' } := by
  have hgrows := topWnd_grows noAlloc h htop
  refine (Chat.Grows.lives hgrows).trans (Chat.Grows.lives (a := noAlloc) ?_)
  obtain ⟨ps, hps⟩ := h.list
  obtain ⟨t, er', ht, hlist⟩ := hps.topWnd_spec (some w)
  rw [htop] at ht
  cases ht
  rw [Act.apply, if_pos ((hps.live w).mp hw)] at hlist
  have hlist' : Represents wnds' (w :: ps.erase w) := by
    have hlive := hlist.all_live w List.mem_cons_self
    rw [WndMgr.write_of_live _ hlive] at hfocus
    cases hfocus
    refine hlist.of_same ⟨WndMgr.put_ids fun _ => rfl, ?_, fun _ => WndMgr.put_live, rfl, rfl, rfl⟩
      (WndMgr.put_next fun _ => rfl) (WndMgr.put_prev fun _ => rfl)
    funext z
    by_cases hz : z = w
    · subst hz
      rw [WndMgr.put_focus_eq (b := true) (fun _ => rfl) hlive, if_pos rfl,
        hlist.focus z List.mem_cons_self]
      simp
    · rw [WndMgr.focus, WndMgr.focus, WndMgr.put_mem_of_ne (by simpa using hz)]
  exact .of_wnds noAlloc hgrows.sound ⟨_, hlist'⟩ (write_live hfocus)
    (contextOf_write hfocus fun _ => ⟨rfl, rfl⟩)

theorem runAction_lives (h : Sound s) {l : Launch} (hl : l.Legal s) {e : Tracker.Executed}
    (he : ∀ i w, e = some (i, .topWnd w) → s.wnds.mem w ≠ none)
    (hs : runAction s l e = some s') : Lives s s' := by
  unfold runAction at hs
  split at hs
  · rename_i i w
    obtain ⟨⟨wnds, er⟩, htop, hs⟩ := Option.bind_eq_some_iff.mp hs
    obtain ⟨wnds', hfocus, hs⟩ := Option.bind_eq_some_iff.mp hs
    cases hs
    exact select_lives h (he i w rfl) htop hfocus
  · obtain ⟨⟨t, wnd⟩, ht, rfl⟩ := Option.map_eq_some_iff.mp hs
    exact launchBeosChat_lives h hl ht
  · cases hs
    exact Chat.Grows.lives (.refl noAlloc h)

-- What the departure of a client leaves.
structure Departs (p : Nat) (s s' : Chat) : Prop where
  wnds : s'.wnds = s.wnds
  ctxs : ∀ d, (s'.ctxs d).map WndContext.client = (s.ctxs d).map WndContext.client
  addresses : s'.clients.map Prod.fst = (s.clients.map Prod.fst).filter (· ≠ p)
  clients : ∀ c ∈ s'.clients, ∃ old ∈ s.clients, c.2.wnds = old.2.wnds

theorem append_clients_of_contexts {w : Nat} {msg : Chat.Message}
    (hs : Chat.appendMessageToWnd s w msg = some s') :
    s'.wnds = s.wnds ∧
      ∀ d, (s'.ctxs d).map WndContext.client = (s.ctxs d).map WndContext.client := by
  rw [Chat.appendMessageToWnd, Option.bind_eq_bind, Option.bind_eq_some_iff] at hs
  obtain ⟨wnd, -, hs⟩ := hs
  split at hs
  · cases hs
    exact ⟨rfl, fun _ => rfl⟩
  · obtain ⟨ctx, hctx, hs⟩ := Option.bind_eq_some_iff.mp hs
    cases hs
    refine ⟨rfl, fun d => ?_⟩
    by_cases hd : d = wnd.userData
    · simp [hd, hctx, Chat.WndContext.append]
    · simp [hd]

theorem rooms_clients_of_contexts {msg : Nat → Chat.Message} {cs : List (Nat × Client)}
    (hs : Chat.appendToRooms msg cs s = some s') :
    s'.wnds = s.wnds ∧
      ∀ d, (s'.ctxs d).map WndContext.client = (s.ctxs d).map WndContext.client := by
  induction cs generalizing s with
  | nil =>
      cases hs
      exact ⟨rfl, fun _ => rfl⟩
  | cons c cs ih =>
      rw [Chat.appendToRooms] at hs
      split at hs
      · exact ih hs
      · obtain ⟨t, ht, hs⟩ := Option.bind_eq_some_iff.mp hs
        obtain ⟨hwnds, hctxs⟩ := append_clients_of_contexts ht
        obtain ⟨hwnds', hctxs'⟩ := ih hs
        exact ⟨hwnds'.trans hwnds, fun d => (hctxs' d).trans (hctxs d)⟩

theorem unregister_departs {p : Nat} (hs : Chat.chatIpcUnregisterClient s (some p) = some s') :
    Departs p s s' := by
  obtain ⟨client, -, hclients⟩ := Chat.unregister_clients hs
  obtain ⟨_, -, hs⟩ := Option.bind_eq_some_iff.mp hs
  obtain ⟨s₁, hsystem, hs⟩ := Option.bind_eq_some_iff.mp hs
  obtain ⟨s₂, hpresence, hs⟩ := Option.bind_eq_some_iff.mp hs
  obtain ⟨hwnds, hctxs⟩ := rooms_clients_of_contexts hsystem
  obtain ⟨_, -, hpresence⟩ := Option.bind_eq_some_iff.mp hpresence
  cases hpresence
  cases hs
  refine ⟨hwnds, hctxs, ?_, ?_⟩
  · have hfilter : ∀ l : List (Nat × Client),
        (l.filter fun c => c.1 ≠ p).map Prod.fst = (l.map Prod.fst).filter (· ≠ p) :=
      fun l => by simp [List.filter_map, Function.comp_def]
    rw [hclients, hfilter, List.map_map]
    congr 1
    apply List.map_congr_left
    intro c _
    rw [Function.comp_apply]
    split <;> rfl
  · intro c hc
    rw [hclients, List.mem_filter, List.mem_map] at hc
    obtain ⟨⟨old, hold, rfl⟩, -⟩ := hc
    refine ⟨old, hold, ?_⟩
    split
    · rfl
    · exact updateRoster_wnds _ _

theorem Departs.sound {p : Nat} (h : Sound s) (hd : Departs p s s')
    (hunref : ∀ w a ctx, contextOf s.wnds w = some a → s.ctxs a = some ctx → ctx.client ≠ p) :
    Sound s' := by
  refine ⟨by rw [hd.wnds]; exact h.list, ?_, fun c hc w hw => ?_, fun w a ha => ?_⟩
  · rw [hd.addresses]
    exact h.addresses.filter _
  · obtain ⟨old, hold, hsame⟩ := hd.clients c hc
    rw [hd.wnds]
    exact h.kept old hold w (hsame ▸ hw)
  · rw [hd.wnds] at ha
    obtain ⟨ctx, hctx, hmem⟩ := h.contexts w a ha
    have hmap := hd.ctxs a
    rw [hctx, Option.map_some, Option.map_eq_some_iff] at hmap
    obtain ⟨ctx', hctx', hsame⟩ := hmap
    refine ⟨ctx', hctx', ?_⟩
    rw [hd.addresses, List.mem_filter, hsame]
    exact ⟨hmem, by simpa using hunref w a ctx ha hctx⟩

-- The client of the dialog may get an entry, then the window is closed.
theorem handleChatDialogEvent_cases {w : Nat} {ev : Evt}
    (hs : Chat.handleChatDialogEvent s w ev = some s') {wnd : Wnd} (hwnd : s.wnds.mem w = some wnd)
    (hdialog : wnd.eventHandler = DIALOG_WINDOW) :
    s' = s ∧ ¬dialogCloses s w ev ∨
      dialogCloses s w ev ∧ ∃ t, Chat.closeWindow t w = some s' ∧ t.wnds = s.wnds ∧
        (Sound s → Sound t) ∧ (∀ w, Unkept s w → Unkept t w) ∧ ∀ w, Unkept t w → Unkept s w := by
  obtain ⟨wnd', hwnd', hs⟩ := Option.bind_eq_some_iff.mp hs
  obtain rfl := Option.some.inj (hwnd.symm.trans hwnd')
  split at hs
  · rename_i hdata
    cases hs
    refine .inl ⟨rfl, ?_⟩
    rintro ⟨v, ctx, hv, -, hne, -⟩
    obtain rfl := Option.some.inj (hwnd.symm.trans hv)
    exact hne hdata
  rename_i hdata
  obtain ⟨ctx, hctx, hs⟩ := Option.bind_eq_some_iff.mp hs
  dsimp only at hs
  have hclosing : ∀ v c, s.wnds.mem w = some v → s.ctxs v.userData = some c →
      v = wnd ∧ c = ctx := by
    intro v c hv hc
    obtain rfl := Option.some.inj (hwnd.symm.trans hv)
    exact ⟨rfl, Option.some.inj (hc.symm.trans hctx)⟩
  split at hs
  · rename_i hclient
    cases hs
    refine .inl ⟨rfl, ?_⟩
    rintro ⟨v, c, hv, -, -, hc, hne, -⟩
    obtain ⟨-, rfl⟩ := hclosing v c hv hc
    exact hne hclient
  rename_i hclient
  split at hs
  · rename_i htype
    cases hs
    refine .inl ⟨rfl, ?_⟩
    rintro ⟨v, c, -, -, -, -, -, hdown, -⟩
    exact htype hdown
  rename_i htype
  rw [not_not] at htype
  split at hs
  · rename_i hadd
    obtain ⟨_, -, hs⟩ := Option.bind_eq_some_iff.mp hs
    refine .inr ⟨⟨wnd, ctx, hwnd, hdialog, hdata, hctx, hclient, htype, .inl hadd⟩, _, hs, rfl, ?_⟩
    have hsame : ∀ c : Client, (Chat.addBuddy ctx c).wnds = c.wnds := by
      intro c
      rw [Chat.addBuddy]
      split <;> rfl
    refine ⟨fun h => (modify_grows noAlloc h _ fun c z hz => .inl (hsame c ▸ hz)).sound, ?_, ?_⟩
    · intro z hz c hc hmem
      obtain ⟨old, hold, -, hnew | hnew⟩ := mem_modify hc
      · exact hz old hold (hsame old.2 ▸ hnew ▸ hmem)
      · exact hz old hold (hnew ▸ hmem)
    · intro z hz c hc hmem
      refine hz _ (List.mem_map_of_mem hc) ?_
      split
      · exact (hsame c.2).symm ▸ hmem
      · exact hmem
  split at hs
  · rename_i hcancel
    exact .inr ⟨⟨wnd, ctx, hwnd, hdialog, hdata, hctx, hclient, htype, .inr hcancel⟩, s, hs, rfl,
      id, fun _ => id, fun _ => id⟩
  · rename_i hadd hcancel
    cases hs
    refine .inl ⟨rfl, ?_⟩
    rintro ⟨v, c, hv, -, -, hc, -, -, hhit⟩
    obtain ⟨rfl, -⟩ := hclosing v c hv hc
    exact hhit.elim hadd hcancel

-- A window goes that no client keeps.
theorem closes_sound (h : Sound s) {w : Nat} {wnds : WndMgr}
    (hspec : (∃ ps', Represents wnds ps') ∧
      (∀ z, wnds.mem z ≠ none ↔ s.wnds.mem z ≠ none ∧ z ≠ w) ∧
      ∀ z a, contextOf wnds z = some a → contextOf s.wnds z = some a)
    (hunkept : Unkept s w) : Sound { s with wnds := wnds } := by
  obtain ⟨hlist, hlive, hctx⟩ := hspec
  refine ⟨hlist, h.addresses, fun c hc z hz => (hlive z).mpr ⟨h.kept c hc z hz, ?_⟩,
    fun z a ha => h.contexts z a (hctx z a ha)⟩
  rintro rfl
  exact hunkept c hc hz

end Chat

-- A window in the list is kept by no client if it goes and the references stay valid.
theorem unkept_of_valid {d : Desktop} (hv : Valid d) {w : Nat} {ps : List Nat}
    (hlist : Represents d.chat.wnds ps) (hgone : d.chat.wnds.mem w = none) :
    Unkept d.chat w ∧ ¬Targets d.tracker w :=
  ⟨fun c hc hw => (listed_iff_live hlist).mp (hv.kept c hc w hw) hgone,
    fun hw => (listed_iff_live hlist).mp (hv.items w hw) hgone⟩

theorem keepsChat_id (s : WndMgr) : KeepsChat s id := ⟨fun _ => rfl, fun _ => rfl⟩

section Steps

variable {d d' : Desktop}

-- The pressed window comes to the front, and the menu is closed.
theorem press_holds (h : Holds d) {w : Nat} (hs : d.press w = some d') :
    Holds d' ∧ (∃ wnds, d'.chat = { d.chat with wnds := wnds } ∧ SameBare d.chat.wnds wnds) ∧
      ∀ z, ¬Targets d'.tracker z := by
  obtain ⟨wnds, hraise, hs⟩ := Option.bind_eq_some_iff.mp hs
  cases hs
  have hraised : Grows noAlloc d.chat { d.chat with wnds := wnds } ∧ SameBare d.chat.wnds wnds := by
    rw [raise] at hraise
    split at hraise
    · obtain ⟨⟨wnds', er⟩, htop, rfl⟩ := Option.map_eq_some_iff.mp hraise
      exact ⟨topWnd_grows noAlloc h.chat htop, sameBare_topWnd htop⟩
    · cases hraise
      exact ⟨.refl noAlloc h.chat, fun _ => rfl⟩
  obtain ⟨hgrows, hbare⟩ := hraised
  have hclosed : ∀ z, ¬Targets (if Tracker.trackerIsMenuOpen d.tracker then
      Tracker.trackerCloseMenu d.tracker else d.tracker) z := by
    intro z hz
    split at hz
    · cases hz.1
    · rename_i hshut
      exact hshut (by rw [Tracker.trackerIsMenuOpen, hz.1]; rfl)
  refine ⟨⟨hgrows.sound, ?_, fun z hz => absurd hz (hclosed z)⟩, ⟨wnds, rfl, hbare⟩, hclosed⟩
  dsimp only
  split
  · exact @Tracker.Outcome.menu _ _ [] h.tracker (.closes _)
  · exact h.tracker

theorem pressed_holds (h : Holds d) {w : Nat} {ev : Evt} (hs : d.pressed w ev = some d') :
    Holds d' ∧ (∃ wnds, d'.chat = { d.chat with wnds := wnds } ∧ SameBare d.chat.wnds wnds) ∧
      (ev.type = .EV_BUT_DOWN → ∀ z, ¬Targets d'.tracker z) := by
  rw [pressed] at hs
  split at hs
  · obtain ⟨hpressed, hbare, hclosed⟩ := press_holds h hs
    exact ⟨hpressed, hbare, fun _ => hclosed⟩
  · rename_i htype
    cases hs
    exact ⟨h, ⟨d.chat.wnds, rfl, fun _ => rfl⟩, fun hdown => absurd hdown htype⟩

theorem Lives.holds (h : Holds d) {s : Chat} (hl : Lives d.chat s) :
    Holds { d with chat := s } :=
  ⟨hl.sound, h.tracker, fun w hw => hl.live w (h.items w hw)⟩

theorem withChat_holds (h : Holds d) {r : Option Chat} (hs : d.withChat r = some d')
    (hl : ∀ s, r = some s → Lives d.chat s) : Holds d' := by
  obtain ⟨s, hr, rfl⟩ := Option.map_eq_some_iff.mp hs
  exact (hl s hr).holds h

theorem withChat_fst_holds (h : Holds d) {a : Alloc} {r : Option (Chat × Option Nat)}
    (hs : d.withChat (r.map Prod.fst) = some d') (hg : ∀ s w, r = some (s, w) → Grows a d.chat s) :
    Holds d' := by
  apply withChat_holds h hs
  intro s hr
  obtain ⟨⟨t, w⟩, ht, rfl⟩ := Option.map_eq_some_iff.mp hr
  exact Chat.Grows.lives (hg t w ht)

theorem trackerCall_holds (h : Holds d) {c : Tracker.Call} {l : Launch} (hl : l.Legal d.chat)
    (hs : d.trackerCall c l = some d') : Holds d' := by
  obtain ⟨wnds, hwnds, hs⟩ := Option.bind_eq_some_iff.mp hs
  obtain ⟨s, haction, hs⟩ := Option.bind_eq_some_iff.mp hs
  cases hs
  have hlives := runAction_lives h.chat hl
    (fun i w he => h.items w (executed_target he)) haction
  refine ⟨hlives.sound, Tracker.menu_step _ (wnds, c) _ h.tracker rfl, fun w hw => ?_⟩
  apply hlives.live
  rcases exec_targets h.tracker hw with hold | ⟨x, hx, rfl⟩
  · exact h.items w hold
  · exact listFrom_live hwnds x hx

-- What the handlers of other windows than the dialog leave.
theorem handler_lives {s s' : Chat} (h : Sound s) {w : Nat} {ev : Evt} {key : Nat} {a : Alloc}
    (hfresh : FreshAlloc s a) {wnd : Wnd} (hwnd : s.wnds.mem w = some wnd)
    (hdialog : wnd.eventHandler ≠ DIALOG_WINDOW) (hs : handler s w ev key a = some s') :
    Lives s s' := by
  obtain ⟨wnd', hwnd', hs⟩ := Option.bind_eq_some_iff.mp hs
  obtain rfl := Option.some.inj (hwnd.symm.trans hwnd')
  split at hs
  · rename_i hmain
    refine Chat.Grows.lives (handleChatMainEvent_grows h hfresh (fun v hv => ?_) hs)
    obtain rfl := Option.some.inj (hwnd.symm.trans hv)
    simp [isChat, hmain]
  split at hs
  · exact Chat.Grows.lives (handleChatConversationEvent_grows h hfresh hs)
  cases hs
  exact Chat.Grows.lives (.refl a h)

theorem handler_dialog {s : Chat} {w : Nat} {ev : Evt} {key : Nat} {a : Alloc} {wnd : Wnd}
    (hwnd : s.wnds.mem w = some wnd) (hdialog : wnd.eventHandler = DIALOG_WINDOW) :
    handler s w ev key a = Chat.handleChatDialogEvent s w ev := by
  simp only [handler, hwnd, Option.bind_eq_bind, Option.bind_some, hdialog]
  rfl

theorem dialogCloses_bare {s : Chat} {wnds : WndMgr} (h : SameBare s.wnds wnds) {w : Nat}
    {ev : Evt} (hcloses : dialogCloses s w ev) : dialogCloses { s with wnds := wnds } w ev := by
  obtain ⟨wnd, ctx, hwnd, hdialog, hdata, hctx, hclient, htype, hhit⟩ := hcloses
  have hsame := h w
  rw [hwnd, Option.map_some, Option.map_eq_some_iff] at hsame
  obtain ⟨wnd', hwnd', hbare⟩ := hsame
  have hhandler : wnd'.eventHandler = wnd.eventHandler := by
    have heq := congrArg Wnd.eventHandler hbare
    exact heq
  have huser : wnd'.userData = wnd.userData := by
    have heq := congrArg Wnd.userData hbare
    exact heq
  have hrect : wnd'.client = wnd.client := by
    have heq := congrArg Wnd.client hbare
    exact heq
  exact ⟨wnd', ctx, hwnd', hhandler.trans hdialog, huser ▸ hdata, huser ▸ hctx, hclient, htype,
    hrect ▸ hhit⟩

theorem SameBare.symm {s t : WndMgr} (h : SameBare s t) : SameBare t s := fun z => (h z).symm

-- The event of a window leaves things as they are, or it closes a dialog.
theorem event_cases (h : Holds d) {w : Nat} {ev : Evt} {key : Nat} {a : Alloc}
    (hfresh : FreshAlloc d.chat a) (hs : exec d (.event w ev key a) = some d') :
    Holds d' ∧ ¬dialogCloses d.chat w ev ∨
      dialogCloses d.chat w ev ∧ (Unkept d.chat w → Holds d') ∧
        (Valid d' → Unkept d.chat w) := by
  obtain ⟨e, hpressed, hs⟩ := Option.bind_eq_some_iff.mp hs
  obtain ⟨he, ⟨wnds, hchat, hbare⟩, hclosed⟩ := pressed_holds h hpressed
  obtain ⟨s, hhandler, rfl⟩ := Option.map_eq_some_iff.mp hs
  have hsame : dialogCloses e.chat w ev ↔ dialogCloses d.chat w ev := by
    rw [hchat]
    exact ⟨dialogCloses_bare (s := { d.chat with wnds := wnds }) (SameBare.symm hbare),
      dialogCloses_bare hbare⟩
  have hfresh' : FreshAlloc e.chat a := by
    rw [hchat]
    refine ⟨fun z hz => ?_, hfresh.ctx⟩
    rw [← Option.map_eq_none_iff, hbare z, Option.map_eq_none_iff]
    exact hfresh.wnd z hz
  obtain ⟨wnd, hwnd, -⟩ := Option.bind_eq_some_iff.mp hhandler
  by_cases hdialog : wnd.eventHandler = DIALOG_WINDOW
  · rw [handler_dialog hwnd hdialog] at hhandler
    obtain ⟨rfl, hnot⟩ | ⟨hcloses, t, ht, hwnds, hsound, hto, hfrom⟩ :=
      handleChatDialogEvent_cases hhandler hwnd hdialog
    · exact .inl ⟨he, fun hd => hnot (hsame.mpr hd)⟩
    · obtain ⟨⟨wnds', er⟩, hcls, ht⟩ := Option.bind_eq_some_iff.mp ht
      cases ht
      obtain ⟨ps, hps⟩ := (hsound he.chat).list
      have hspec := clsWnd_spec hps (keepsChat_id t.wnds) hcls
      have hkept : ∀ z, Unkept d.chat z ↔ Unkept t z := by
        intro z
        have hunkept : Unkept d.chat z ↔ Unkept e.chat z := by rw [hchat]; rfl
        exact hunkept.trans ⟨hto z, hfrom z⟩
      have hdown : ev.type = .EV_BUT_DOWN := by
        obtain ⟨_, _, -, -, -, -, -, hdown, -⟩ := hcloses
        exact hdown
      refine .inr ⟨hsame.mp hcloses, fun hunkept => ?_, fun hv => ?_⟩
      · exact ⟨closes_sound (hsound he.chat) hspec ((hkept w).mp hunkept), he.tracker,
          fun z hz => absurd hz (hclosed hdown z)⟩
      · obtain ⟨⟨ps', hps'⟩, hlive, -⟩ := hspec
        have hgone : wnds'.mem w = none := by
          by_contra hlive'
          exact ((hlive w).mp hlive').2 rfl
        exact (hkept w).mpr (unkept_of_valid hv hps' hgone).1
  · refine .inl ⟨(handler_lives he.chat hfresh' hwnd hdialog hhandler).holds he, fun hd => ?_⟩
    obtain ⟨v, _, hv, hdialog', -⟩ := hsame.mpr hd
    obtain rfl := Option.some.inj (hwnd.symm.trans hv)
    exact hdialog hdialog'

theorem close_cases (h : Holds d) {w : Nat} {hook : Hook} (hkeep : ∀ s, KeepsChat s hook)
    (hs : d.close w hook = some d') :
    (Unkept d.chat w ∧ ¬Targets d.tracker w → Holds d') ∧
      (Valid d' → Unkept d.chat w ∧ ¬Targets d.tracker w) := by
  obtain ⟨⟨wnds, er⟩, hcls, hs⟩ := Option.bind_eq_some_iff.mp hs
  cases hs
  obtain ⟨ps, hps⟩ := h.chat.list
  have hspec := clsWnd_spec hps (hkeep _) hcls
  obtain ⟨⟨ps', hps'⟩, hlive, -⟩ := id hspec
  constructor
  · rintro ⟨hunkept, htarget⟩
    refine ⟨closes_sound h.chat hspec hunkept, h.tracker,
      fun z hz => (hlive z).mpr ⟨h.items z hz, ?_⟩⟩
    rintro rfl
    exact htarget hz
  · intro hv
    have hgone : wnds.mem w = none := by
      by_contra hlive'
      exact ((hlive w).mp hlive').2 rfl
    exact unkept_of_valid hv hps' hgone

-- The calls of the other applications take no window away.
theorem other_holds (h : Holds d) {a : Window.Act} (hlegal : a.Legal d.chat.wnds)
    (hcls : ∀ w hook, a ≠ .cls w hook) (hs : exec d (.other a) = some d') : Holds d' := by
  apply withChat_holds h hs
  intro s hs
  obtain ⟨wnds, hexec, rfl⟩ := Option.map_eq_some_iff.mp hs
  obtain ⟨ps, hps⟩ := h.chat.list
  have hlist := step_spec hps ⟨hlegal, hexec⟩
  have hlive : ∀ w, d.chat.wnds.mem w ≠ none → wnds.mem w ≠ none := fun w hw =>
    (hlist.live w).mpr (apply_mem (fun p hook => hcls (some p) hook) w ((hps.live w).mp hw))
  have hctx : ∀ w a, contextOf wnds w = some a → contextOf d.chat.wnds w = some a := by
    cases a with
    | opn p title x y wd ht attr mem =>
        obtain ⟨⟨t, r⟩, hopn, rfl⟩ := Option.map_eq_some_iff.mp hexec
        cases p with
        | none =>
            cases hopn
            exact fun _ _ => id
        | some p =>
            obtain ⟨rfl, hbare⟩ := opnWnd_bare hopn
            intro w c hc
            rw [contextOf_bare hbare, contextOf, WndMgr.alloc] at hc
            by_cases hw : w = p
            · simp [hw, newWnd, isChat, Chat.MAIN_WINDOW, Chat.CONVERSATION_WINDOW,
                DIALOG_WINDOW] at hc
            · simpa [hw, contextOf] using hc
    | cls wnd hook => exact absurd rfl (hcls wnd hook)
    | top wnd =>
        obtain ⟨⟨t, er⟩, htop, rfl⟩ := Option.map_eq_some_iff.mp hexec
        intro w c hc
        rw [← contextOf_bare (sameBare_topWnd htop)]
        exact hc
    | cycle =>
        rw [Window.exec, wndCycleFocus] at hexec
        intro w c hc
        split at hexec
        · cases hexec
          exact hc
        · obtain ⟨wnd, -, hexec⟩ := Option.bind_eq_some_iff.mp hexec
          split at hexec
          · cases hexec
            exact hc
          obtain ⟨curr, -, hexec⟩ := Option.bind_eq_some_iff.mp hexec
          split at hexec
          · obtain ⟨t, hshown, hexec⟩ := Option.bind_eq_some_iff.mp hexec
            obtain ⟨⟨u, er⟩, htop, hexec⟩ := Option.bind_eq_some_iff.mp hexec
            cases hexec
            rw [← contextOf_write hshown fun _ => ⟨rfl, rfl⟩,
              ← contextOf_bare (sameBare_topWnd htop)]
            exact hc
          · cases hexec
            exact hc
  exact ⟨⟨⟨_, hlist⟩, h.chat.addresses, fun c hc w hw => hlive w (h.chat.kept c hc w hw),
    fun w a ha => h.chat.contexts w a (hctx w a ha)⟩, hlive⟩

theorem change_holds (h : Holds d) {f : Hook} (hkeep : KeepsChat d.chat.wnds f)
    (hs : exec d (.change f) = some d') : Holds d' := by
  cases hs
  obtain ⟨ps, hps⟩ := h.chat.list
  have hlive : ∀ w, f d.chat.wnds.mem w = none ↔ d.chat.wnds.mem w = none := by
    intro w
    rw [← Option.map_eq_none_iff, hkeep.1 w, Option.map_eq_none_iff]
  have hgrows : Grows noAlloc d.chat
      { d.chat with wnds := { d.chat.wnds with mem := f d.chat.wnds.mem } } :=
    .of_wnds noAlloc h.chat ⟨ps, hps.hook hkeep.1⟩ hlive hkeep.2
  exact (Chat.Grows.lives hgrows).holds h

theorem unregister_cases (h : Holds d) {p : Nat}
    (hs : exec d (.unregister (some p)) = some d') :
    ((Call.unregister (some p)).Spares d → Holds d') ∧
      (Valid d' → (Call.unregister (some p)).Spares d) := by
  obtain ⟨s, hdeparts, rfl⟩ := Option.map_eq_some_iff.mp hs
  replace hdeparts := unregister_departs hdeparts
  constructor
  · intro hspares
    refine ⟨hdeparts.sound h.chat hspares, h.tracker, fun w hw => ?_⟩
    dsimp only
    rw [hdeparts.wnds]
    exact h.items w hw
  · intro hv w a ctx ha hctx heq
    obtain ⟨ps, hps⟩ := h.chat.list
    have hlisted : s.wnds.Listed w := by
      rw [hdeparts.wnds]
      exact (listed_iff_live hps).mpr (contextOf_live ha)
    obtain ⟨ctx', hctx', hclient⟩ := hv.contexts w a hlisted (by
      rw [hdeparts.wnds]
      exact ha)
    have hmap := hdeparts.ctxs a
    rw [hctx, hctx', Option.map_some, Option.map_some, Option.some.injEq] at hmap
    rw [client_isSome, hdeparts.addresses, List.mem_filter, hmap, heq] at hclient
    simpa using hclient.2

-- A step that spares what is referred to keeps all references, and no other step does.
theorem step_cases (h : Holds d) {c : Call} (hstep : Step d c d') :
    (c.Spares d → Holds d') ∧ (Valid d' → c.Spares d) := by
  obtain ⟨hlegal, hs⟩ := hstep
  have hgrown : Holds d' → c.Spares d → (c.Spares d → Holds d') ∧ (Valid d' → c.Spares d) :=
    fun hd hc => ⟨fun _ => hd, fun _ => hc⟩
  cases c with
  | register p preferredNick time =>
      exact hgrown (withChat_fst_holds (a := noAlloc) h hs fun s w =>
        chatIpcRegisterClient_grows noAlloc h.chat hlegal) trivial
  | unregister client =>
      cases client with
      | none =>
          cases hs
          exact hgrown h trivial
      | some p => exact unregister_cases h hs
  | openMain client a =>
      exact hgrown (withChat_fst_holds h hs fun s w =>
        openChatMainWindow_grows h.chat hlegal) trivial
  | openMuc client roomName a =>
      exact hgrown (withChat_fst_holds h hs fun s w =>
        openChatMucWindow_grows h.chat hlegal) trivial
  | openPrivate client targetNick a =>
      exact hgrown (withChat_fst_holds h hs fun s w =>
        openChatPrivateWindow_grows h.chat hlegal) trivial
  | openAddBuddy client a =>
      exact hgrown (withChat_fst_holds h hs fun s w =>
        openChatAddBuddyDialog_grows h.chat hlegal.1 fun p hp =>
          client_isSome.mp (hlegal.2 p hp)) trivial
  | sendMuc sender text =>
      exact hgrown (withChat_holds h hs fun s hr =>
        Chat.Grows.lives (chatIpcSendMucMessage_grows noAlloc h.chat hr)) trivial
  | sendPrivate sender targetNick text a =>
      exact hgrown (withChat_holds h hs fun s hr =>
        Chat.Grows.lives (chatIpcSendPrivateMessage_grows h.chat hlegal hr)) trivial
  | event w ev key a =>
      obtain ⟨hd, hnot⟩ | ⟨hcloses, hkeeps, hbreaks⟩ := event_cases h hlegal hs
      · exact hgrown hd fun hcloses => absurd hcloses hnot
      · exact ⟨fun hspares => hkeeps (hspares hcloses), fun hv _ => hbreaks hv⟩
  | tracker c l => exact hgrown (trackerCall_holds h hlegal hs) trivial
  | closeButton w hook =>
      obtain ⟨e, hpress, hs⟩ := Option.bind_eq_some_iff.mp hs
      obtain ⟨he, ⟨wnds, hchat, -⟩, hclosed⟩ := press_holds h hpress
      have hunkept : Unkept e.chat w ↔ Unkept d.chat w := by rw [hchat]; rfl
      obtain ⟨hkeeps, hbreaks⟩ := close_cases he hlegal hs
      exact ⟨fun hspares => hkeeps ⟨hunkept.mpr hspares, hclosed w⟩,
        fun hv => hunkept.mp (hbreaks hv).1⟩
  | closeCommand w hook => exact close_cases h hlegal hs
  | other a => exact hgrown (other_holds h hlegal.1 hlegal.2 hs) trivial
  | change f => exact hgrown (change_holds h hlegal hs) trivial

end Steps

theorem holds_start : Holds start := by
  refine ⟨⟨⟨[], represents_init 1⟩, List.nodup_nil, by simp [start, Chat.zero], ?_⟩,
    (Tracker.menu_init _ _).1, ?_⟩
  · intro w a ha
    exact absurd rfl (contextOf_live ha)
  · intro w hw
    cases hw.1

-- All along a run every reference is to what is there, if and only if no call closes a window or
-- takes a client away that is referred to.
theorem references_valid_iff_spared (tr : List (Desktop × Call)) (d : Desktop)
    (htr : Trace Step start tr d) :
    (Valid d ∧ ∀ t ∈ tr, Valid t.1) ↔ ∀ t ∈ tr, t.2.Spares t.1 :=
  htr.forall_iff_while holds_start (fun _ => Holds.valid)
    (fun _ _ _ h hspares hstep => (step_cases h hstep).1 hspares)
    fun _ _ _ h hstep => (step_cases h hstep).2

-- The calls of a run whose allocations are fresh, with the hooks that leave the chat alone.
def fresh (d : Desktop) : Call → Prop
  | .register p _ _ => FreshClient d.chat p
  | .openMuc _ _ a | .openPrivate _ _ a | .sendPrivate _ _ _ a =>
    (∀ w ∈ a.wnd, d.chat.wnds.mem w = none) ∧ ∀ c ∈ a.ctx, d.chat.ctxs c = none
  | _ => True

instance (d : Desktop) : (c : Call) → Decidable (fresh d c)
  | .register .. => inferInstanceAs (Decidable (∀ _ ∈ _, _))
  | .openMuc .. | .openPrivate .. | .sendPrivate .. => inferInstanceAs (Decidable (_ ∧ _))
  | .unregister _ | .openMain .. | .openAddBuddy .. | .sendMuc .. | .event .. | .tracker ..
  | .closeButton .. | .closeCommand .. | .other _ | .change _ => inferInstanceAs (Decidable True)

def freshExec (d : Desktop) (c : Call) : Option Desktop := if fresh d c then exec d c else none

def noLaunch : Launch := ⟨none, noAlloc, noAlloc, 0⟩

-- The calls of the runs below.
inductive Plain : Call → Prop
  | register p preferredNick time : Plain (.register p preferredNick time)
  | unregister client : Plain (.unregister client)
  | openMuc client roomName a : Plain (.openMuc client roomName a)
  | openPrivate client targetNick a : Plain (.openPrivate client targetNick a)
  | sendPrivate sender targetNick text a : Plain (.sendPrivate sender targetNick text a)
  | tracker c : Plain (.tracker c noLaunch)
  | closeButton w : Plain (.closeButton w id)

theorem Plain.step {c : Call} (h : Plain c) {d d' : Desktop} (hs : freshExec d c = some d') :
    Step d c d' := by
  rw [freshExec] at hs
  split at hs
  · rename_i hfresh
    refine ⟨?_, hs⟩
    cases h with
    | register => exact hfresh
    | unregister => trivial
    | openMuc | openPrivate | sendPrivate => exact ⟨hfresh.1, hfresh.2⟩
    | tracker =>
        refine ⟨fun _ _ => by simp [noLaunch], ⟨?_, ?_⟩, ⟨?_, ?_⟩, ?_, ?_⟩
        all_goals simp [noLaunch, noAlloc]
    | closeButton => exact fun s => keepsChat_id s
  · cases hs

theorem trace_of_plain {cs : List Call} (hplain : ∀ c ∈ cs, Plain c) {d : Desktop}
    (hrun : cs.foldlM freshExec start = some d) :
    ∃ tr, Trace Step start tr d ∧ tr.map Prod.snd = cs.reverse := by
  have hstep : ∀ c ∈ cs, ∀ d d', freshExec d c = some d' → Step d c d' :=
    fun c hc d d' => (hplain c hc).step
  obtain ⟨tr, htr, hlabels⟩ := Trace.start.foldlM hstep hrun
  exact ⟨tr, htr, by simpa using hlabels⟩

-- Alice sends a message to Bob, whose window is then selected in the menu.
def writing : List Call :=
  [.register (some 1000) (some (ChatXml.ascii "Alice")) 0,
    .register (some 1001) (some (ChatXml.ascii "Bob")) 0,
    .openMuc (some 1000) none ⟨some 100, false, some 500⟩,
    .sendPrivate (some 1000) (some (ChatXml.ascii "Bob")) (some (ChatXml.ascii "Hi"))
      ⟨some 101, false, some 501⟩,
    .tracker .openMenu noLaunch,
    .tracker (.mouseDown 20 215) noLaunch]

theorem references_valid_writing :
    ∃ tr d, Trace Step start tr d ∧ tr.map Prod.snd = writing.reverse ∧ d.chat.wnds.Listed 101 ∧
      Valid d := by
  have heval : (writing.foldlM freshExec start).map
      (fun d => decide (d.chat.wnds.Listed 101)) = some true := by
    decide +kernel
  obtain ⟨d, hrun, hlisted⟩ := Option.map_eq_some_iff.mp heval
  obtain ⟨tr, htr, hlabels⟩ := trace_of_plain (by
    simp only [writing, List.forall_mem_cons, List.not_mem_nil, false_imp_iff, implies_true]
    exact ⟨.register .., .register .., .openMuc .., .sendPrivate .., .tracker .., .tracker ..,
      trivial⟩) hrun
  refine ⟨tr, d, htr, hlabels, of_decide_eq_true hlisted,
    ((references_valid_iff_spared tr d htr).mpr fun t ht => ?_).1⟩
  have hmem : t.2 ∈ writing := by
    rw [← List.mem_reverse, ← hlabels]
    exact List.mem_map_of_mem ht
  generalize t.2 = c at hmem
  simp only [writing, List.mem_cons, List.not_mem_nil, or_false] at hmem
  rcases hmem with rfl | rfl | rfl | rfl | rfl | rfl <;> trivial

def roomClosed : List Call :=
  [.register (some 1000) none 0, .openMuc (some 1000) none ⟨some 100, false, some 500⟩,
    .closeButton 100 id]

def clientGone : List Call :=
  [.register (some 1000) none 0,
    .openPrivate (some 1000) (some (ChatXml.ascii "Bob")) ⟨some 100, false, some 500⟩,
    .unregister (some 1000)]

-- The window of a room is closed, and to open the room again gives the window that is gone. A
-- client leaves, and its private window stays.
theorem references_go_stale :
    (∃ tr d, Trace Step start tr d ∧ tr.map Prod.snd = roomClosed.reverse ∧
        (∃ s, d.chat.openChatMucWindow (some 1000) none ⟨some 200, false, some 600⟩ =
          some (s, some 100) ∧ ¬s.wnds.Listed 100) ∧ ¬Valid d) ∧
      ∃ tr d, Trace Step start tr d ∧ tr.map Prod.snd = clientGone.reverse ∧ ¬Valid d := by
  constructor
  · have heval : (roomClosed.foldlM freshExec start).bind (fun d =>
        (d.chat.openChatMucWindow (some 1000) none ⟨some 200, false, some 600⟩).map fun r =>
          (r.2, decide (r.1.wnds.Listed 100), decide (d.chat.wnds.Listed 100),
            d.chat.clients.map fun c => c.2.mucWnd)) =
          some (some 100, false, false, [some 100]) := by
      decide +kernel
    obtain ⟨d, hrun, hview⟩ := Option.bind_eq_some_iff.mp heval
    obtain ⟨⟨s, w⟩, hopen, hview⟩ := Option.map_eq_some_iff.mp hview
    obtain ⟨tr, htr, hlabels⟩ := trace_of_plain (by
      simp only [roomClosed, List.forall_mem_cons, List.not_mem_nil, false_imp_iff, implies_true]
      exact ⟨.register .., .openMuc .., .closeButton .., trivial⟩) hrun
    simp only [Prod.mk.injEq, decide_eq_false_iff_not] at hview
    obtain ⟨rfl, hgone, hclosed, hkept⟩ := hview
    refine ⟨tr, d, htr, hlabels, ⟨s, hopen, hgone⟩, fun hv => hclosed ?_⟩
    obtain ⟨c, cs, hclients, hc, -⟩ := List.map_eq_cons_iff.mp hkept
    exact hv.kept c (by simp [hclients]) 100 (by simp [Client.wnds, hc])
  · have heval : (clientGone.foldlM freshExec start).map (fun d =>
        (contextOf d.chat.wnds 100, (d.chat.ctxs 500).map WndContext.client,
          decide (d.chat.wnds.Listed 100), (d.chat.client 1000).isSome)) =
        some (some 500, some 1000, true, false) := by
      decide +kernel
    obtain ⟨d, hrun, hview⟩ := Option.map_eq_some_iff.mp heval
    obtain ⟨tr, htr, hlabels⟩ := trace_of_plain (by
      simp only [clientGone, List.forall_mem_cons, List.not_mem_nil, false_imp_iff, implies_true]
      exact ⟨.register .., .openPrivate .., .unregister .., trivial⟩) hrun
    simp only [Prod.mk.injEq, decide_eq_true_eq] at hview
    obtain ⟨hcontext, hclient, hlisted, hgone⟩ := hview
    refine ⟨tr, d, htr, hlabels, fun hv => ?_⟩
    obtain ⟨ctx, hctx, hregistered⟩ := hv.contexts 100 500 hlisted hcontext
    rw [hctx, Option.map_some, Option.some.injEq] at hclient
    rw [hclient, hgone] at hregistered
    cases hregistered

end BTron.Desktop
