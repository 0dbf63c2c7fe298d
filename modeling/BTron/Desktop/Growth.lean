import BTron.Chat.Presence
import BTron.Desktop

namespace BTron.Desktop

open Window
open Chat

-- What holds of the chat at all times: the windows form a list, no client is registered twice, the
-- clients keep windows there are, and the chat windows refer to registered clients.
structure Sound (s : Chat) : Prop where
  list : ∃ ps, Represents s.wnds ps
  addresses : (s.clients.map Prod.fst).Nodup
  kept : ∀ c ∈ s.clients, ∀ w ∈ c.2.wnds, s.wnds.mem w ≠ none
  contexts : ∀ w a, contextOf s.wnds w = some a →
    ∃ ctx, s.ctxs a = some ctx ∧ ctx.client ∈ s.clients.map Prod.fst

-- No window and no context goes, and none but those allocated is new.
structure Grows (a : Alloc) (s s' : Chat) : Prop where
  sound : Sound s'
  live : ∀ w, s.wnds.mem w ≠ none → s'.wnds.mem w ≠ none
  wnds : ∀ w, s'.wnds.mem w ≠ none → s.wnds.mem w ≠ none ∨ a.wnd = some w
  ctxs : ∀ c, s'.ctxs c ≠ none → s.ctxs c ≠ none ∨ a.ctx = some c

section Grows

variable {a b : Alloc} {s s' t : Chat}

theorem Grows.refl (a : Alloc) (h : Sound s) : Grows a s s :=
  ⟨h, fun _ => id, fun _ => .inl, fun _ => .inl⟩

theorem Grows.trans (h : Grows a s s') (h' : Grows a s' t) : Grows a s t where
  sound := h'.sound
  live := fun w hw => h'.live w (h.live w hw)
  wnds := fun w hw => (h'.wnds w hw).elim (h.wnds w) .inr
  ctxs := fun c hc => (h'.ctxs c hc).elim (h.ctxs c) .inr

theorem Grows.fresh (h : Grows a s s') (hb : FreshAlloc s b)
    (hwnd : ∀ w, a.wnd = some w → b.wnd ≠ some w) (hctx : ∀ c, a.ctx = some c → b.ctx ≠ some c) :
    FreshAlloc s' b where
  wnd := fun w hw => by
    by_contra hlive
    exact (h.wnds w hlive).elim (fun hold => hold (hb.wnd w hw)) fun hnew => hwnd w hnew hw
  ctx := fun c hc => by
    by_contra hlive
    exact (h.ctxs c hlive).elim (fun hold => hold (hb.ctx c hc)) fun hnew => hctx c hnew hc

-- Other clients at the same addresses, with windows there are.
theorem Grows.of_clients (a : Alloc) (h : Sound s) {cs : List (Nat × Client)}
    (haddr : cs.map Prod.fst = s.clients.map Prod.fst)
    (hkept : ∀ c ∈ cs, ∀ w ∈ c.2.wnds, s.wnds.mem w ≠ none) : Grows a s { s with clients := cs } :=
  ⟨⟨h.list, by simpa only [haddr] using h.addresses, hkept,
    by simpa only [haddr] using h.contexts⟩, fun _ => id, fun _ => .inl, fun _ => .inl⟩

-- A write to a context that leaves its client.
theorem Grows.of_context (a : Alloc) (h : Sound s) {c : Nat} {ctx ctx' : WndContext}
    (hctx : s.ctxs c = some ctx) (hclient : ctx'.client = ctx.client) :
    Grows a s { s with ctxs := Function.update s.ctxs c (some ctx') } := by
  refine ⟨⟨h.list, h.addresses, h.kept, ?_⟩, fun _ => id, fun _ => .inl, ?_⟩
  · intro w d hd
    obtain ⟨ctx₁, hctx₁, hmem⟩ := h.contexts w d hd
    by_cases hdc : d = c
    · subst hdc
      obtain rfl := Option.some.inj (hctx₁.symm.trans hctx)
      exact ⟨ctx', by simp, hclient ▸ hmem⟩
    · exact ⟨ctx₁, by simp [hdc, hctx₁], hmem⟩
  · intro d hd
    by_cases hdc : d = c
    · subst hdc
      exact .inl (by simp [hctx])
    · exact .inl (by simpa [hdc] using hd)

-- The windows in another order.
theorem Grows.of_wnds (a : Alloc) (h : Sound s) {wnds : WndMgr} (hlist : ∃ ps, Represents wnds ps)
    (hlive : ∀ w, wnds.mem w = none ↔ s.wnds.mem w = none)
    (hctx : ∀ w, contextOf wnds w = contextOf s.wnds w) : Grows a s { s with wnds := wnds } :=
  ⟨⟨hlist, h.addresses, fun c hc w hw => (not_congr (hlive w)).mpr (h.kept c hc w hw),
    fun w d hd => h.contexts w d (hctx w ▸ hd)⟩, fun w => (not_congr (hlive w)).mpr,
    fun w hw => .inl ((not_congr (hlive w)).mp hw), fun _ => .inl⟩

theorem append_grows (a : Alloc) (h : Sound s) {w : Nat} {msg : Message}
    (hs : appendMessageToWnd s w msg = some s') : Grows a s s' := by
  rw [appendMessageToWnd, Option.bind_eq_bind, Option.bind_eq_some_iff] at hs
  obtain ⟨wnd, -, hs⟩ := hs
  split at hs
  · cases hs
    exact .refl a h
  · obtain ⟨ctx, hctx, hs⟩ := Option.bind_eq_some_iff.mp hs
    cases hs
    exact .of_context a h hctx rfl

theorem appendToRooms_grows (a : Alloc) (h : Sound s) {msg : Nat → Message}
    {cs : List (Nat × Client)} (hs : appendToRooms msg cs s = some s') : Grows a s s' := by
  induction cs generalizing s with
  | nil =>
      cases hs
      exact .refl a h
  | cons c cs ih =>
      rw [appendToRooms] at hs
      split at hs
      · exact ih h hs
      · obtain ⟨t, ht, hs⟩ := Option.bind_eq_some_iff.mp hs
        have hgrows := append_grows a h ht
        exact hgrows.trans (ih hgrows.sound hs)

theorem writeContext_grows (a : Alloc) (h : Sound s) {c : Nat} {f : WndContext → WndContext}
    (hs : writeContext s c f = some s') (hf : ∀ ctx, (f ctx).client = ctx.client) :
    Grows a s s' := by
  obtain ⟨ctx, hctx, hs⟩ := Option.bind_eq_some_iff.mp hs
  cases hs
  exact .of_context a h hctx (hf ctx)

theorem modify_addresses (s : Chat) (p : Nat) (f : Client → Client) :
    (s.modify p f).clients.map Prod.fst = s.clients.map Prod.fst := by
  rw [Chat.modify, List.map_map]
  apply List.map_congr_left
  intro c _
  rw [Function.comp_apply]
  split <;> rfl

theorem mem_modify {p : Nat} {f : Client → Client} {c : Nat × Client}
    (hc : c ∈ (s.modify p f).clients) :
    ∃ old ∈ s.clients, c.1 = old.1 ∧ (c.2 = f old.2 ∨ c.2 = old.2) := by
  rw [Chat.modify] at hc
  obtain ⟨old, hold, rfl⟩ := List.mem_map.mp hc
  refine ⟨old, hold, ?_⟩
  split
  · exact ⟨rfl, .inl rfl⟩
  · exact ⟨rfl, .inr rfl⟩

-- A client changes, and its windows are as they were or there.
theorem modify_grows (a : Alloc) (h : Sound s) (p : Nat) {f : Client → Client}
    (hf : ∀ c, ∀ w ∈ (f c).wnds, w ∈ c.wnds ∨ s.wnds.mem w ≠ none) : Grows a s (s.modify p f) := by
  apply Grows.of_clients a h (modify_addresses s p f)
  intro c hc w hw
  obtain ⟨old, hold, -, hnew | hsame⟩ := mem_modify hc
  · rw [hnew] at hw
    exact (hf old.2 w hw).elim (h.kept old hold w) id
  · rw [hsame] at hw
    exact h.kept old hold w hw

theorem updateRoster_wnds (client c : Client) : (updateRoster client c).wnds = c.wnds := by
  rw [updateRoster]
  split
  · rfl
  · split <;> rfl

theorem broadcastPresence_grows (a : Alloc) (h : Sound s) {p : Nat}
    (hs : chatIpcBroadcastPresence s p = some s') : Grows a s s' := by
  obtain ⟨client, -, hs⟩ := Option.bind_eq_some_iff.mp hs
  cases hs
  apply Grows.of_clients a h
  · rw [List.map_map]
    apply List.map_congr_left
    intro c _
    rw [Function.comp_apply]
    split <;> rfl
  · simp only [List.forall_mem_map]
    intro c hc
    split
    · simpa only [updateRoster_wnds] using h.kept c hc
    · exact h.kept c hc

theorem toggleConnected_grows (a : Alloc) (h : Sound s) {p : Nat}
    (hs : Chat.toggleConnected s p = some s') : Grows a s s' := by
  have hgrows := modify_grows a h p (f := Client.toggleConnected) fun c w hw => .inl hw
  exact hgrows.trans (broadcastPresence_grows a hgrows.sound hs)

theorem pickStatus_grows (a : Alloc) (h : Sound s) {p : Nat}
    (hs : Chat.pickStatus s p = some s') : Grows a s s' := by
  have hgrows := modify_grows a h p (f := Client.pickStatus) fun c w hw => .inl hw
  exact hgrows.trans (broadcastPresence_grows a hgrows.sound hs)

-- The context of a chat window is no matter of its place in the list.
theorem contextOf_bare {wnds wnds' : WndMgr} (h : SameBare wnds wnds') (w : Nat) :
    contextOf wnds' w = contextOf wnds w := by
  have hview : ∀ v : Option Wnd, (v.bind fun v => if isChat v then some v.userData else none) =
      (v.map Wnd.bare).bind fun v => if isChat v then some v.userData else none := by
    rintro (_ | v) <;> rfl
  rw [contextOf, contextOf, hview, hview (wnds.mem w), h w]

theorem opnWnd_bare {wnds wnds' : WndMgr} {p : Nat} {r : Option Nat}
    {title : Option (Nat → UB)} {x y w ht : Int} {attr : Nat} {mem : Bool}
    (h : opnWnd wnds (some p) title x y w ht attr mem = some (wnds', r)) :
    r = some p ∧ SameBare (wnds.alloc p (newWnd wnds.nextId title x y w ht attr mem)) wnds' := by
  rw [opnWnd] at h
  split at h
  · cases h
  simp only [Option.bind_eq_bind, Option.bind_eq_some_iff] at h
  obtain ⟨s₁, h₁, s₂, h₂, h⟩ := h
  cases h
  refine ⟨rfl, ?_⟩
  have hhooked : SameBare s₁ s₂ := sameBare_writeIf h₂ fun _ => rfl
  have hlinked := sameBare_write h₁ fun _ => rfl
  exact fun z => (hhooked z).trans (hlinked z)

-- A window of the chat is opened.
theorem openWindow_grows (h : Sound s) (hfresh : FreshAlloc s a) {title : List UB}
    {x y w ht : Int} {attr hook : Nat} {ctx : WndContext} {wnd : Option Nat}
    (hclient : ctx.client ∈ s.clients.map Prod.fst)
    (hs : openWindow s title x y w ht attr ctx hook a = some (s', wnd)) :
    Grows a s s' ∧ s'.clients = s.clients ∧ ∀ w, wnd = some w → s'.wnds.mem w ≠ none := by
  simp only [openWindow, Option.bind_eq_bind, Option.bind_eq_some_iff] at hs
  obtain ⟨⟨wnds, r⟩, hopn, hs⟩ := hs
  obtain ⟨ps, hps⟩ := h.list
  cases hp : a.wnd with
  | none =>
      rw [hp] at hopn
      cases hopn
      cases hs
      exact ⟨.refl a h, rfl, by simp⟩
  | some p =>
      rw [hp] at hopn
      obtain ⟨rfl, hbare⟩ := opnWnd_bare hopn
      obtain ⟨c, hc, wnds', hwrite, hs⟩ := by
        simpa only [Option.bind_eq_some_iff] using hs
      cases hs
      have hopened : Represents wnds (p :: ps) := by
        apply step_spec (a := .opn (some p) _ _ _ _ _ _ _) hps
        exact ⟨fun q hq => Option.some.inj hq ▸ hfresh.wnd p hp, by rw [Window.exec, hopn]; rfl⟩
      have hwritten := write_keeps hopened hwrite fun _ => rfl
      have hlive : ∀ z, wnds'.mem z ≠ none ↔ z = p ∨ s.wnds.mem z ≠ none := by
        intro z
        rw [hwritten.live, List.mem_cons, hps.live]
      -- the other windows keep their contexts
      have hother : ∀ z, z ≠ p → contextOf wnds' z = contextOf s.wnds z := by
        intro z hz
        rw [WndMgr.write, Option.map_eq_some_iff] at hwrite
        obtain ⟨-, -, rfl⟩ := hwrite
        have hput : (wnds.put (some p) fun v =>
            { v with userData := c, paint := hook, eventHandler := hook }).mem z = wnds.mem z :=
          WndMgr.put_mem_of_ne (by simpa using hz)
        rw [contextOf, hput, ← contextOf, contextOf_bare hbare, contextOf]
        simp [WndMgr.alloc, hz, contextOf]
      have hself : ∀ d, contextOf wnds' p = some d → d = c := by
        intro d hd
        rw [WndMgr.write, Option.map_eq_some_iff] at hwrite
        obtain ⟨v, hv, rfl⟩ := hwrite
        rw [contextOf, WndMgr.put_mem, if_pos rfl, hv, Option.map_some, Option.bind_some] at hd
        split at hd
        · exact (Option.some.inj hd).symm
        · cases hd
      refine ⟨⟨⟨⟨_, hwritten⟩, h.addresses,
        fun d hd z hz => (hlive z).mpr (.inr (h.kept d hd z hz)), ?_⟩,
        fun z hz => (hlive z).mpr (.inr hz), fun z hz => ?_, fun d hd => ?_⟩, rfl, ?_⟩
      · intro z d hd
        by_cases hz : z = p
        · subst hz
          obtain rfl := hself d hd
          exact ⟨ctx, by simp, hclient⟩
        · rw [hother z hz] at hd
          obtain ⟨ctx₁, hctx₁, hmem⟩ := h.contexts z d hd
          have hne : d ≠ c := by
            rintro rfl
            rw [hfresh.ctx d hc] at hctx₁
            cases hctx₁
          exact ⟨ctx₁, by simp [hne, hctx₁], hmem⟩
      · exact ((hlive z).mp hz).elim (fun heq => .inr (heq ▸ hp)) .inl
      · by_cases hdc : d = c
        · exact .inr (hdc ▸ hc)
        · exact .inl (by simpa [hdc] using hd)
      · intro z hz
        obtain rfl := Option.some.inj hz
        exact (hlive p).mpr (.inl rfl)

theorem topWnd_live {wnds wnds' : WndMgr} {w : Option Nat} {er : ER}
    (h : topWnd wnds w = some (wnds', er)) (z : Nat) : wnds'.mem z = none ↔ wnds.mem z = none := by
  have hbare := sameBare_topWnd h z
  rw [← Option.map_eq_none_iff, hbare, Option.map_eq_none_iff]

theorem topWnd_grows (a : Alloc) (h : Sound s) {w : Option Nat} {wnds : WndMgr} {er : ER}
    (hs : topWnd s.wnds w = some (wnds, er)) : Grows a s { s with wnds := wnds } := by
  obtain ⟨ps, hps⟩ := h.list
  obtain ⟨wnds', er', htop, hlist⟩ := hps.topWnd_spec w
  rw [hs] at htop
  cases htop
  exact .of_wnds a h ⟨_, hlist⟩ (topWnd_live hs) (contextOf_bare (sameBare_topWnd hs))

theorem raiseWindow_grows (a : Alloc) (h : Sound s) {w : Nat} {wnd : Option Nat}
    (hs : raiseWindow s w = some (s', wnd)) : Grows a s s' := by
  obtain ⟨⟨wnds, er⟩, htop, hs⟩ := Option.bind_eq_some_iff.mp hs
  cases hs
  exact topWnd_grows a h htop

theorem registered_of_client {p : Nat} {c : Client} (h : s.client p = some c) :
    p ∈ s.clients.map Prod.fst := List.mem_map_of_mem (mem_of_client h)

theorem openChatMainWindow_grows (h : Sound s) (hfresh : FreshAlloc s a) {client wnd : Option Nat}
    (hs : openChatMainWindow s client a = some (s', wnd)) : Grows a s s' := by
  cases client with
  | none =>
      cases hs
      exact .refl a h
  | some p =>
      obtain ⟨c, hc, hs⟩ := Option.bind_eq_some_iff.mp hs
      dsimp only at hs
      split at hs
      · exact raiseWindow_grows a h hs
      · obtain ⟨⟨t, w⟩, hopen, hs⟩ := Option.bind_eq_some_iff.mp hs
        obtain ⟨hgrows, -, hlive⟩ := openWindow_grows h hfresh (registered_of_client hc) hopen
        dsimp only at hs
        split at hs
        · cases hs
          exact hgrows
        · rename_i w
          cases hs
          refine hgrows.trans (modify_grows a hgrows.sound p fun c z hz => ?_)
          simp only [Client.wnds, Option.toList_some, List.mem_append, List.mem_singleton] at hz ⊢
          rcases hz with (rfl | hz) | hz
          · exact .inr (hlive z rfl)
          · exact .inl (.inl (.inr hz))
          · exact .inl (.inr hz)

theorem openChatMucWindow_grows (h : Sound s) (hfresh : FreshAlloc s a) {client wnd : Option Nat}
    {roomName : Option (List UB)} (hs : openChatMucWindow s client roomName a = some (s', wnd)) :
    Grows a s s' := by
  cases client with
  | none =>
      cases hs
      exact .refl a h
  | some p =>
      obtain ⟨c, hc, hs⟩ := Option.bind_eq_some_iff.mp hs
      dsimp only at hs
      split at hs
      · exact raiseWindow_grows a h hs
      · obtain ⟨⟨t, w⟩, hopen, hs⟩ := Option.bind_eq_some_iff.mp hs
        obtain ⟨hgrows, -, hlive⟩ := openWindow_grows h hfresh (registered_of_client hc) hopen
        dsimp only at hs
        split at hs
        · cases hs
          exact hgrows
        · rename_i w
          obtain ⟨u, hu, hs⟩ := Option.bind_eq_some_iff.mp hs
          cases hs
          have hmodify : Grows a t (t.modify p fun c => { c with mucWnd := some w }) := by
            refine modify_grows a hgrows.sound p fun c z hz => ?_
            simp only [Client.wnds, Option.toList_some, List.mem_append, List.mem_singleton] at hz ⊢
            rcases hz with (hz | rfl) | hz
            · exact .inl (.inl (.inl hz))
            · exact .inr (hlive z rfl)
            · exact .inl (.inr hz)
          exact (hgrows.trans hmodify).trans (append_grows a hmodify.sound hu)

theorem openChatPrivateWindow_grows (h : Sound s) (hfresh : FreshAlloc s a)
    {client wnd : Option Nat} {targetNick : Option (List UB)}
    (hs : openChatPrivateWindow s client targetNick a = some (s', wnd)) : Grows a s s' := by
  unfold openChatPrivateWindow at hs
  split at hs
  · rename_i p nick
    obtain ⟨c, hc, hs⟩ := Option.bind_eq_some_iff.mp hs
    obtain ⟨⟨t, w⟩, hopen, hs⟩ := Option.bind_eq_some_iff.mp hs
    obtain ⟨hgrows, -, hlive⟩ := openWindow_grows h hfresh (registered_of_client hc) hopen
    dsimp only at hs
    split at hs
    · cases hs
      exact hgrows
    · rename_i w
      split at hs
      · cases hs
        refine hgrows.trans (modify_grows a hgrows.sound p fun c z hz => ?_)
        simp only [Client.wnds, List.mem_append, List.mem_singleton] at hz ⊢
        rcases hz with hz | hz | rfl
        · exact .inl (.inl hz)
        · exact .inl (.inr hz)
        · exact .inr (hlive z rfl)
      · cases hs
        exact hgrows
  · cases hs
    exact .refl a h

theorem openChatAddBuddyDialog_grows (h : Sound s) (hfresh : FreshAlloc s a)
    {client wnd : Option Nat} (hclient : ∀ p, client = some p → p ∈ s.clients.map Prod.fst)
    (hs : openChatAddBuddyDialog s client a = some (s', wnd)) : Grows a s s' := by
  cases client with
  | none =>
      cases hs
      exact .refl a h
  | some p => exact (openWindow_grows h hfresh (hclient p rfl) hs).1

theorem chatIpcSendMucMessage_grows (a : Alloc) (h : Sound s) {sender : Option Nat}
    {text : Option (List UB)} (hs : chatIpcSendMucMessage s sender text = some s') :
    Grows a s s' := by
  unfold chatIpcSendMucMessage at hs
  split at hs
  · split at hs
    · cases hs
      exact .refl a h
    · obtain ⟨c, -, hs⟩ := Option.bind_eq_some_iff.mp hs
      obtain ⟨t, ht, hs⟩ := Option.bind_eq_some_iff.mp hs
      have hgrows := appendToRooms_grows a h ht
      split at hs
      · cases hs
        exact hgrows
      · exact hgrows.trans (appendToRooms_grows a hgrows.sound hs)
  · cases hs
    exact .refl a h

theorem recipientWindow_grows (h : Sound s) (hfresh : FreshAlloc s a) {recip : Nat × Client}
    {nick : List UB} {wnd : Option Nat} (hs : recipientWindow s recip nick a = some (s', wnd)) :
    Grows a s s' := by
  obtain ⟨found, -, hs⟩ := Option.bind_eq_some_iff.mp hs
  split at hs
  · cases hs
    exact .refl a h
  · exact openChatPrivateWindow_grows h hfresh hs

theorem appendOwn_grows (a : Alloc) (h : Sound s) {c : Client} {targetNick text : List UB}
    (hs : appendOwn s c targetNick text = some s') : Grows a s s' := by
  obtain ⟨own, -, hs⟩ := Option.bind_eq_some_iff.mp hs
  split at hs
  · cases hs
    exact .refl a h
  · exact append_grows a h hs

theorem dispatchPrivate_grows (h : Sound s) (hfresh : FreshAlloc s a) {c : Client}
    {targetNick text : List UB} (hs : dispatchPrivate s c targetNick text a = some s') :
    Grows a s s' := by
  rw [dispatchPrivate] at hs
  split at hs
  · cases hs
    exact .refl a h
  · obtain ⟨⟨t, w⟩, ht, hs⟩ := Option.bind_eq_some_iff.mp hs
    have hgrows := recipientWindow_grows h hfresh ht
    dsimp only at hs
    split at hs
    · cases hs
      exact hgrows
    · exact hgrows.trans (append_grows a hgrows.sound hs)

def noAlloc : Alloc := ⟨none, false, none⟩

-- What allocates nothing leaves memory fresh.
theorem Grows.keeps_fresh (h : Grows noAlloc s s') (hfresh : FreshAlloc s a) : FreshAlloc s' a :=
  h.fresh hfresh (by simp [noAlloc]) (by simp [noAlloc])

theorem chatIpcSendPrivateMessage_grows (h : Sound s) (hfresh : FreshAlloc s a)
    {sender : Option Nat} {targetNick text : Option (List UB)}
    (hs : chatIpcSendPrivateMessage s sender targetNick text a = some s') : Grows a s s' := by
  unfold chatIpcSendPrivateMessage at hs
  split at hs
  · obtain ⟨c, -, hs⟩ := Option.bind_eq_some_iff.mp hs
    obtain ⟨t, ht, hs⟩ := Option.bind_eq_some_iff.mp hs
    have hgrows := appendOwn_grows a h ht
    have hfresh' := (appendOwn_grows noAlloc h ht).keeps_fresh hfresh
    exact hgrows.trans (dispatchPrivate_grows hgrows.sound hfresh' hs)
  · cases hs
    exact .refl a h

-- A handler has a window with a context of a client that is registered.
theorem withContext_grows (a : Alloc) (h : Sound s) {w : Nat} {f : Wnd → WndContext → Option Chat}
    (hs : withContext s w f = some s')
    (hf : ∀ wnd ctx, s.wnds.mem w = some wnd → s.ctxs wnd.userData = some ctx →
      f wnd ctx = some s' → Grows a s s') : Grows a s s' := by
  obtain ⟨wnd, hwnd, hs⟩ := Option.bind_eq_some_iff.mp hs
  split at hs
  · cases hs
    exact .refl a h
  · obtain ⟨ctx, hctx, hs⟩ := Option.bind_eq_some_iff.mp hs
    split at hs
    · cases hs
      exact .refl a h
    · exact hf wnd ctx hwnd hctx hs

theorem handleChatMainEvent_grows (h : Sound s) (hfresh : FreshAlloc s a) {w : Nat} {ev : Evt}
    (hchat : ∀ wnd, s.wnds.mem w = some wnd → isChat wnd)
    (hs : handleChatMainEvent s w ev a = some s') : Grows a s s' := by
  apply withContext_grows a h hs
  intro wnd ctx hwnd hctx hs
  have hopens : ∀ {r : Option (Chat × Option Nat)}, r.map Prod.fst = some s' →
      (∀ t w, r = some (t, w) → Grows a s t) → Grows a s s' := by
    intro r hr hgrows
    obtain ⟨⟨t, w⟩, ht, rfl⟩ := Option.map_eq_some_iff.mp hr
    exact hgrows t w ht
  have hmuc : (openChatMucWindow s (some ctx.client) (some CHAT_DEFAULT_ROOM) a).map Prod.fst =
      some s' → Grows a s s' :=
    fun hr => hopens hr fun t w => openChatMucWindow_grows h hfresh
  dsimp only at hs
  split at hs
  · cases hs
    exact .refl a h
  split at hs
  · split at hs
    · refine hopens hs fun t w => openChatAddBuddyDialog_grows h hfresh fun p hp => ?_
      obtain rfl := Option.some.inj hp
      obtain ⟨ctx', hctx', hmem⟩ := h.contexts _ wnd.userData (by
        rw [contextOf, hwnd, Option.bind_some, if_pos (hchat wnd hwnd)])
      obtain rfl := Option.some.inj (hctx.symm.trans hctx')
      exact hmem
    split at hs
    · exact hmuc hs
    split at hs
    · exact toggleConnected_grows a h hs
    · cases hs
      exact .refl a h
  split at hs
  · exact pickStatus_grows a h hs
  split at hs
  · exact hmuc hs
  · cases hs
    exact .refl a h

theorem sendInput_grows (h : Sound s) (hfresh : FreshAlloc s a) {c : Nat} {ctx : WndContext}
    (hs : sendInput s c ctx a = some s') : Grows a s s' := by
  rw [sendInput] at hs
  split at hs
  · obtain ⟨t, ht, hs⟩ := Option.bind_eq_some_iff.mp hs
    have hgrows : Grows a s t := by
      rw [sendText] at ht
      split at ht
      · exact chatIpcSendMucMessage_grows a h ht
      · exact chatIpcSendPrivateMessage_grows h hfresh ht
    exact hgrows.trans (writeContext_grows a hgrows.sound hs fun _ => rfl)
  · cases hs
    exact .refl a h

theorem handleChatConversationEvent_grows (h : Sound s) (hfresh : FreshAlloc s a) {w : Nat}
    {ev : Evt} {key : Nat} (hs : handleChatConversationEvent s w ev key a = some s') :
    Grows a s s' := by
  apply withContext_grows a h hs
  intro wnd ctx _ _ hs
  dsimp only at hs
  split at hs
  · split at hs
    · exact sendInput_grows h hfresh hs
    split at hs
    · exact writeContext_grows a h hs fun _ => rfl
    split at hs
    · exact writeContext_grows a h hs fun _ => rfl
    · cases hs
      exact .refl a h
  split at hs
  · split at hs
    · exact sendInput_grows h hfresh hs
    · cases hs
      exact .refl a h
  · cases hs
    exact .refl a h

-- A new client has no windows yet.
theorem chatIpcRegisterClient_grows (a : Alloc) (h : Sound s) {p client : Option Nat}
    {preferredNick : Option (List UB)} {time : Nat} (hfresh : FreshClient s p)
    (hs : chatIpcRegisterClient s p preferredNick time = some (s', client)) : Grows a s s' := by
  unfold chatIpcRegisterClient at hs
  split at hs
  · cases hs
    exact .refl a h
  · rename_i q
    split at hs
    · cases hs
    dsimp only at hs
    obtain ⟨t, ht, hs⟩ := Option.bind_eq_some_iff.mp hs
    obtain ⟨u, hu, hs⟩ := Option.bind_eq_some_iff.mp hs
    cases hs
    have hnew : q ∉ s.clients.map Prod.fst := by
      intro hmem
      obtain ⟨c, hc, heq⟩ := List.mem_map.mp hmem
      exact hfresh c hc (congrArg some heq.symm)
    have hgrows : Grows a s { s with
        clients := (q, newClient s.nextClientId (newNick s preferredNick time).1) :: s.clients
        nextClientId := s.nextClientId + 1
        nickCounter := (newNick s preferredNick time).2 } := by
      refine ⟨⟨h.list, List.nodup_cons.mpr ⟨hnew, h.addresses⟩, ?_, ?_⟩, fun _ => id,
        fun _ => .inl, fun _ => .inl⟩
      · rw [List.forall_mem_cons]
        refine ⟨fun w hw => ?_, h.kept⟩
        cases hw
      · intro w d hd
        obtain ⟨ctx, hctx, hmem⟩ := h.contexts w d hd
        exact ⟨ctx, hctx, List.mem_cons_of_mem _ hmem⟩
    have hpresence := broadcastPresence_grows a hgrows.sound ht
    exact (hgrows.trans hpresence).trans (appendToRooms_grows a hpresence.sound hu)

end Grows

end BTron.Desktop
