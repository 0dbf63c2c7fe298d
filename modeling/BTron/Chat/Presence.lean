import BTron.Chat
import BTron.Lib.Run
import Mathlib.Data.List.Nodup

namespace BTron.Chat

open Lib
open ChatXml (ascii)

inductive Act
  | register (p : Option Nat) (preferredNick : Option (List UB)) (time : Nat)
  | unregister (client : Option Nat)
  | toggleConnected (p : Nat)
  | pickStatus (p : Nat)

-- What a call relies on: `calloc` returns fresh memory, and a roster has room for an entry. The
-- nick of a new client is not in use.
def Act.Legal (s : Chat) : Act → Prop
  | .register p preferredNick time =>
    (∀ c ∈ s.clients, c.2.roster.length < CHAT_MAX_ROSTER) ∧
      ∀ c ∈ s.clients, p ≠ some c.1 ∧ c.2.nick ≠ (newNick s preferredNick time).1
  | _ => ∀ c ∈ s.clients, c.2.roster.length < CHAT_MAX_ROSTER

def execAct (s : Chat) : Act → Option Chat
  | .register p preferredNick time => (chatIpcRegisterClient s p preferredNick time).map Prod.fst
  | .unregister client => chatIpcUnregisterClient s client
  | .toggleConnected p => toggleConnected s p
  | .pickStatus p => pickStatus s p

instance (s : Chat) : (a : Act) → Decidable (a.Legal s)
  | .register .. => inferInstanceAs (Decidable (_ ∧ _))
  | .unregister _ | .toggleConnected _ | .pickStatus _ => inferInstanceAs (Decidable (∀ _ ∈ _, _))

def PresenceStep (s : Chat) (a : Act) (s' : Chat) : Prop := a.Legal s ∧ execAct s a = some s'

-- The states a roster lists for a nick.
def seen (roster : List RosterItem) (nick : List UB) : List Status :=
  (roster.filter fun item => item.nick = nick).map RosterItem.status

-- Every roster has every other client once, with its state.
def Synced (s : Chat) : Prop :=
  ∀ x ∈ s.clients, ∀ y ∈ s.clients, x.1 ≠ y.1 → seen y.2.roster x.2.nick = [x.2.status]

instance (s : Chat) : Decidable (Synced s) := inferInstanceAs (Decidable (∀ _ ∈ _, _))

def Act.newcomer : Act → Option Nat
  | .register p _ _ => p
  | _ => none

-- Whose presence a call broadcasts.
def Act.speaker : Act → Option Nat
  | .register p _ _ => p
  | .unregister client => client
  | .toggleConnected p => some p
  | .pickStatus p => some p

-- Whether the client at x broadcast its presence since the one at y registered, by the calls of a
-- run, the last one first.
def announced (x y : Nat) : List Act → Bool
  | [] => false
  | a :: as => a.newcomer ≠ some y && (a.speaker = some x || announced x y as)

-- The roster of a new client.
def defaults : List RosterItem := (newClient 0 []).roster

theorem newClient_roster (id : Int) (nick : List UB) : (newClient id nick).roster = defaults := rfl

theorem updateEntry_none {client : Client} {items : List RosterItem}
    (h : updateEntry client items = none) : ∀ item ∈ items, item.nick ≠ client.nick := by
  induction items with
  | nil => simp
  | cons item items ih =>
      rw [updateEntry] at h
      split at h
      · cases h
      · rename_i hne
        exact List.forall_mem_cons.mpr ⟨hne, ih (Option.map_eq_none_iff.mp h)⟩

-- The first entry of the client is the one that changes.
theorem updateEntry_some {client : Client} {items items' : List RosterItem}
    (h : updateEntry client items = some items') :
    ∃ before item after text, items = before ++ item :: after ∧ item.nick = client.nick ∧
      items' = before ++ { item with status := client.status, statusText := text } :: after := by
  induction items generalizing items' with
  | nil => cases h
  | cons item items ih =>
      rw [updateEntry] at h
      split at h
      · rename_i heq
        cases h
        exact ⟨[], item, items, _, rfl, heq, rfl⟩
      · obtain ⟨items'', hrest, rfl⟩ := Option.map_eq_some_iff.mp h
        obtain ⟨before, it, after, text, rfl, hnick, rfl⟩ := ih hrest
        exact ⟨item :: before, it, after, text, rfl, hnick, rfl⟩

theorem seen_eq_nil {items : List RosterItem} {nick : List UB}
    (h : ∀ item ∈ items, item.nick ≠ nick) : seen items nick = [] := by
  rw [seen, List.map_eq_nil_iff, List.filter_eq_nil_iff]
  intro item hitem
  simpa using h item hitem

theorem seen_append (items items' : List RosterItem) (nick : List UB) :
    seen (items ++ items') nick = seen items nick ++ seen items' nick := by
  rw [seen, seen, seen, List.filter_append, List.map_append]

theorem seen_cons (item : RosterItem) (items : List RosterItem) (nick : List UB) :
    seen (item :: items) nick =
      if item.nick = nick then item.status :: seen items nick else seen items nick := by
  rw [seen, List.filter_cons]
  by_cases h : item.nick = nick
  · simp [h, seen]
  · simp [h, seen]

theorem updateRoster_nick (client c : Client) : (updateRoster client c).nick = c.nick := by
  rw [updateRoster]
  split
  · rfl
  · split <;> rfl

theorem updateRoster_status (client c : Client) : (updateRoster client c).status = c.status := by
  rw [updateRoster]
  split
  · rfl
  · split <;> rfl

-- A presence that reaches a roster with room is the one entry of its nick.
theorem updateRoster_spec {client c : Client}
    (hcopy : strncpy client.nick (CHAT_MAX_NICK_LEN - 1) = client.nick)
    (hroom : c.roster.length < CHAT_MAX_ROSTER) (hnodup : (c.roster.map RosterItem.nick).Nodup) :
    ((updateRoster client c).roster.map RosterItem.nick).Nodup ∧
      ∀ nick, seen (updateRoster client c).roster nick =
        if nick = client.nick then [client.status] else seen c.roster nick := by
  rw [updateRoster]
  split
  · rename_i items' hsome
    obtain ⟨before, item, after, text, hitems, hnick, rfl⟩ := updateEntry_some hsome
    dsimp only
    rw [hitems] at hnodup ⊢
    rw [List.map_append, List.map_cons] at hnodup
    refine ⟨by simpa using hnodup, ?_⟩
    intro nick
    rw [List.nodup_append, List.nodup_cons] at hnodup
    obtain ⟨-, ⟨hafter, -⟩, hbefore⟩ := hnodup
    have hmine : ∀ it : RosterItem, it ∈ before ∨ it ∈ after → it.nick ≠ client.nick := by
      rintro it (hit | hit) heq
      · exact hbefore it.nick (List.mem_map_of_mem hit) item.nick (by simp) (heq.trans hnick.symm)
      · exact hafter (hnick.trans heq.symm ▸ List.mem_map_of_mem hit)
    rw [seen_append, seen_append, seen_cons, seen_cons, hnick]
    by_cases hn : nick = client.nick
    · subst hn
      rw [if_pos rfl, if_pos rfl, seen_eq_nil fun it hit => hmine it (.inl hit),
        seen_eq_nil fun it hit => hmine it (.inr hit)]
      rfl
    · rw [if_neg hn, if_neg (Ne.symm hn), if_neg (Ne.symm hn)]
  · rename_i hnone
    have hmine := updateEntry_none hnone
    rw [if_pos hroom]
    constructor
    · rw [List.map_append, List.nodup_append]
      refine ⟨hnodup, List.nodup_singleton _, ?_⟩
      intro nick hmem nick' hmem'
      obtain ⟨item, hitem, rfl⟩ := List.mem_map.mp hmem
      rw [List.map_singleton, List.mem_singleton] at hmem'
      rw [hmem', rosterItem, hcopy]
      exact hmine item hitem
    · intro nick
      rw [seen_append, seen_cons, rosterItem, hcopy]
      by_cases hn : nick = client.nick
      · subst hn
        rw [if_pos rfl, if_pos rfl, seen_eq_nil hmine]
        rfl
      · rw [if_neg (Ne.symm hn), if_neg hn]
        exact List.append_nil _

-- What the rosters say, where `heard x y` says that y's is up to date about x.
structure Rosters (heard : Nat → Nat → Bool) (clients : List (Nat × Client)) : Prop where
  addresses : (clients.map Prod.fst).Nodup
  nicks : ∀ x ∈ clients, ∀ y ∈ clients, x.2.nick = y.2.nick → x.1 = y.1
  copies : ∀ x ∈ clients, strncpy x.2.nick (CHAT_MAX_NICK_LEN - 1) = x.2.nick
  entries : ∀ y ∈ clients, (y.2.roster.map RosterItem.nick).Nodup
  views : ∀ x ∈ clients, ∀ y ∈ clients, x.1 ≠ y.1 →
    seen y.2.roster x.2.nick = if heard x.1 y.1 then [x.2.status] else seen defaults x.2.nick

section Rosters

variable {heard heard' : Nat → Nat → Bool} {clients : List (Nat × Client)}

theorem Rosters.unique (h : Rosters heard clients) {x y : Nat × Client} (hx : x ∈ clients)
    (hy : y ∈ clients) (heq : x.1 = y.1) : x = y :=
  List.inj_on_of_nodup_map h.addresses hx hy heq

theorem Rosters.congr (h : Rosters heard clients)
    (heq : ∀ x ∈ clients, ∀ y ∈ clients, x.1 ≠ y.1 → heard x.1 y.1 = heard' x.1 y.1) :
    Rosters heard' clients where
  addresses := h.addresses
  nicks := h.nicks
  copies := h.copies
  entries := h.entries
  views := fun x hx y hy hne => by rw [← heq x hx y hy hne, h.views x hx y hy hne]

theorem Rosters.filter (h : Rosters heard clients) (keep : Nat × Client → Bool) :
    Rosters heard (clients.filter keep) where
  addresses := h.addresses.sublist (List.filter_sublist.map _)
  nicks := fun x hx y hy => h.nicks x (List.mem_of_mem_filter hx) y (List.mem_of_mem_filter hy)
  copies := fun x hx => h.copies x (List.mem_of_mem_filter hx)
  entries := fun y hy => h.entries y (List.mem_of_mem_filter hy)
  views := fun x hx y hy => h.views x (List.mem_of_mem_filter hx) y (List.mem_of_mem_filter hy)

-- A client broadcasts its presence, with a state that may be new.
theorem Rosters.broadcast (h : Rosters heard clients) {p : Nat} {client : Client}
    {f : Client → Client} (hmem : (p, client) ∈ clients) (hnick : (f client).nick = client.nick)
    (hroster : (f client).roster = client.roster)
    (hroom : ∀ c ∈ clients, c.2.roster.length < CHAT_MAX_ROSTER) :
    Rosters (fun x y => x = p || heard x y)
      (clients.map fun c =>
        if c.1 = p then (c.1, f c.2) else (c.1, updateRoster (f client) c.2)) := by
  have hcopy : strncpy (f client).nick (CHAT_MAX_NICK_LEN - 1) = (f client).nick := by
    rw [hnick]
    exact h.copies _ hmem
  -- what becomes of a client that is registered
  have hall : ∀ c ∈ clients, ∃ c', (if c.1 = p then (c.1, f c.2) else
      (c.1, updateRoster (f client) c.2)) = (c.1, c') ∧ c'.nick = c.2.nick ∧
      (c.1 = p → c'.roster = c.2.roster ∧ c' = f client) ∧
      (c.1 ≠ p → c'.status = c.2.status ∧ (c'.roster.map RosterItem.nick).Nodup ∧
        ∀ nick, seen c'.roster nick =
          if nick = client.nick then [(f client).status] else seen c.2.roster nick) := by
    intro c hc
    by_cases hp : c.1 = p
    · obtain rfl := h.unique hc hmem hp
      exact ⟨f client, if_pos rfl, hnick, fun _ => ⟨hroster, rfl⟩, fun hne => absurd rfl hne⟩
    · obtain ⟨hnodup, hseen⟩ := updateRoster_spec hcopy (hroom c hc) (h.entries c hc)
      rw [hnick] at hseen
      exact ⟨_, if_neg hp, updateRoster_nick _ _, fun heq => absurd heq hp,
        fun _ => ⟨updateRoster_status _ _, hnodup, hseen⟩⟩
  refine ⟨?_, ?_, ?_, ?_, ?_⟩
  · have hsame : (clients.map fun c => if c.1 = p then (c.1, f c.2) else
        (c.1, updateRoster (f client) c.2)).map Prod.fst = clients.map Prod.fst := by
      rw [List.map_map]
      apply List.map_congr_left
      intro c hc
      obtain ⟨c', hc', -⟩ := hall c hc
      rw [Function.comp_apply, hc']
    rw [hsame]
    exact h.addresses
  all_goals simp only [List.forall_mem_map]
  · intro x hx y hy
    obtain ⟨x', hx', hxnick, -⟩ := hall x hx
    obtain ⟨y', hy', hynick, -⟩ := hall y hy
    rw [hx', hy', hxnick, hynick]
    exact h.nicks x hx y hy
  · intro x hx
    obtain ⟨x', hx', hxnick, -⟩ := hall x hx
    rw [hx', hxnick]
    exact h.copies x hx
  · intro y hy
    obtain ⟨y', hy', -, hself, hother⟩ := hall y hy
    rw [hy']
    by_cases hp : y.1 = p
    · rw [(hself hp).1]
      exact h.entries y hy
    · exact (hother hp).2.1
  · intro x hx y hy hne
    obtain ⟨x', hx', hxnick, hxself, hxother⟩ := hall x hx
    obtain ⟨y', hy', -, hyself, hyother⟩ := hall y hy
    rw [hx', hy'] at hne ⊢
    have hview := h.views x hx y hy hne
    simp only [hxnick] at hne ⊢
    by_cases hyp : y.1 = p
    · have hxp : x.1 ≠ p := fun heq => hne (heq.trans hyp.symm)
      rw [(hyself hyp).1, (hxother hxp).1, hview]
      simp [hxp]
    · rw [(hyother hyp).2.2]
      by_cases hxp : x.1 = p
      · obtain rfl := h.unique hx hmem hxp
        simp [(hxself rfl).2]
      · rw [if_neg fun heq => hxp (h.nicks x hx _ hmem heq), (hxother hxp).1, hview]
        simp [hxp]

-- A client registers at a free address, with a nick that is not in use.
theorem Rosters.register (h : Rosters heard clients) {p : Nat} {id : Int} {nick : List UB}
    (hcopy : strncpy nick (CHAT_MAX_NICK_LEN - 1) = nick)
    (hroom : ∀ c ∈ clients, c.2.roster.length < CHAT_MAX_ROSTER)
    (hfresh : ∀ c ∈ clients, c.1 ≠ p ∧ c.2.nick ≠ nick) :
    Rosters (fun x y => y ≠ p && (x = p || heard x y))
      ((p, newClient id nick) ::
        clients.map fun c => (c.1, updateRoster (newClient id nick) c.2)) := by
  have hspec : ∀ c ∈ clients, ((updateRoster (newClient id nick) c.2).roster.map
      RosterItem.nick).Nodup ∧ ∀ n, seen (updateRoster (newClient id nick) c.2).roster n =
        if n = nick then [.online] else seen c.2.roster n :=
    fun c hc => updateRoster_spec hcopy (hroom c hc) (h.entries c hc)
  refine ⟨?_, ?_, ?_, ?_, ?_⟩
  · rw [List.map_cons, List.map_map, List.nodup_cons]
    refine ⟨?_, h.addresses⟩
    intro hmem
    obtain ⟨c, hc, heq⟩ := List.mem_map.mp hmem
    exact (hfresh c hc).1 heq
  all_goals simp only [List.forall_mem_cons, List.forall_mem_map, updateRoster_nick,
    updateRoster_status]
  · refine ⟨⟨fun _ => trivial, fun y hy heq => absurd heq.symm (hfresh y hy).2⟩, fun x hx => ?_⟩
    exact ⟨fun heq => absurd heq (hfresh x hx).2, fun y hy => h.nicks x hx y hy⟩
  · exact ⟨hcopy, h.copies⟩
  · exact ⟨by rw [newClient_roster]; decide, fun y hy => (hspec y hy).1⟩
  · refine ⟨⟨fun hne => absurd rfl hne, fun y hy hne => ?_⟩, fun x hx => ⟨fun hne => ?_, ?_⟩⟩
    · rw [(hspec y hy).2]
      simp [newClient, chatClientInitDefaults, (hfresh y hy).1]
    · simp [newClient_roster]
    · intro y hy hne
      rw [(hspec y hy).2, if_neg (hfresh x hx).2, h.views x hx y hy hne]
      simp [(hfresh x hx).1, (hfresh y hy).1]

end Rosters

-- Messages change no client.
theorem appendMessageToWnd_clients {s s' : Chat} {w : Nat} {msg : Message}
    (h : appendMessageToWnd s w msg = some s') : s'.clients = s.clients := by
  rw [appendMessageToWnd, Option.bind_eq_bind, Option.bind_eq_some_iff] at h
  obtain ⟨wnd, -, h⟩ := h
  split at h
  · cases h
    rfl
  · obtain ⟨ctx, -, h⟩ := Option.bind_eq_some_iff.mp h
    cases h
    rfl

theorem appendToRooms_clients {s s' : Chat} {msg : Nat → Message} {cs : List (Nat × Client)}
    (h : appendToRooms msg cs s = some s') : s'.clients = s.clients := by
  induction cs generalizing s with
  | nil =>
      cases h
      rfl
  | cons c cs ih =>
      rw [appendToRooms] at h
      split at h
      · exact ih h
      · obtain ⟨s'', hfirst, hrest⟩ := Option.bind_eq_some_iff.mp h
        exact (ih hrest).trans (appendMessageToWnd_clients hfirst)

theorem broadcastPresence_clients {s s' : Chat} {p : Nat}
    (h : chatIpcBroadcastPresence s p = some s') :
    ∃ client, s.client p = some client ∧ s'.clients =
      s.clients.map fun c => if c.1 ≠ p then (c.1, updateRoster client c.2) else c := by
  obtain ⟨client, hclient, h⟩ := Option.bind_eq_some_iff.mp h
  cases h
  exact ⟨client, hclient, rfl⟩

theorem client_modify (s : Chat) (p : Nat) (f : Client → Client) :
    (s.modify p f).client p = (s.client p).map f := by
  rw [client, client, modify]
  induction s.clients with
  | nil => rfl
  | cons c cs ih =>
      obtain ⟨q, c⟩ := c
      by_cases hq : q = p
      · subst hq
        simp
      · have hne : (p == q) = false := beq_false_of_ne (Ne.symm hq)
        simp only [List.map_cons, if_neg hq, List.lookup_cons, hne]
        exact ih

theorem mem_of_client {s : Chat} {p : Nat} {c : Client} (h : s.client p = some c) :
    (p, c) ∈ s.clients := by
  obtain ⟨l, l', heq, -⟩ := List.lookup_eq_some_iff.mp h
  rw [heq]
  simp

-- A client changes its state and broadcasts it.
theorem modify_broadcast_clients {s s' : Chat} {p : Nat} {f : Client → Client}
    (h : chatIpcBroadcastPresence (s.modify p f) p = some s') :
    ∃ client, (p, client) ∈ s.clients ∧ s'.clients = s.clients.map fun c =>
      if c.1 = p then (c.1, f c.2) else (c.1, updateRoster (f client) c.2) := by
  obtain ⟨c, hc, hs'⟩ := broadcastPresence_clients h
  rw [client_modify] at hc
  obtain ⟨client, hclient, rfl⟩ := Option.map_eq_some_iff.mp hc
  refine ⟨client, mem_of_client hclient, ?_⟩
  rw [hs', modify, List.map_map]
  apply List.map_congr_left
  intro c _
  by_cases hp : c.1 = p
  · simp [hp]
  · simp [hp]

theorem zero_notMem_word : ∀ w ∈ kNickPrefixes ++ kNickRoles, 0 ∉ w := by decide

theorem zero_notMem_getD {words : List (List UB)} (h : ∀ w ∈ words, 0 ∉ w) (i : Nat) :
    0 ∉ words.getD i [] := by
  rw [List.getD_eq_getElem?_getD]
  cases hget : words[i]? with
  | none => simp
  | some w => exact h w (List.mem_of_getElem? hget)

theorem zero_notMem_randomNick (counter time maxLen : Nat) :
    0 ∉ (chatGenerateRandomNick counter time maxLen).1 := by
  intro hmem
  have hmem' := List.mem_of_mem_take hmem
  rw [List.mem_append, List.mem_append] at hmem'
  rcases hmem' with (hhead | hdash) | hrole
  · refine zero_notMem_getD (fun w hw => ?_) _ hhead
    exact zero_notMem_word w (List.mem_append_left _ hw)
  · exact absurd hdash (by decide)
  · refine zero_notMem_getD (fun w hw => ?_) _ hrole
    exact zero_notMem_word w (List.mem_append_right _ hw)

theorem newNick_copy (s : Chat) (preferredNick : Option (List UB)) (time : Nat) :
    strncpy (newNick s preferredNick time).1 (CHAT_MAX_NICK_LEN - 1) =
      (newNick s preferredNick time).1 := by
  have hrandom : strncpy (chatGenerateRandomNick s.nickCounter time CHAT_MAX_NICK_LEN).1
      (CHAT_MAX_NICK_LEN - 1) = (chatGenerateRandomNick s.nickCounter time CHAT_MAX_NICK_LEN).1 :=
    strncpy_eq (zero_notMem_randomNick _ _ _) (List.length_take_le _ _)
  unfold newNick
  split
  · split
    · exact strncpy_eq (zero_notMem_strncpy _ _) (List.length_take_le _ _)
    · exact hrandom
  · exact hrandom

theorem register_clients {s s' : Chat} {p : Nat} {preferredNick : Option (List UB)} {time : Nat}
    (hfresh : ∀ c ∈ s.clients, c.1 ≠ p)
    (h : (chatIpcRegisterClient s (some p) preferredNick time).map Prod.fst = some s') :
    s'.clients = (p, newClient s.nextClientId (newNick s preferredNick time).1) ::
      s.clients.map fun c => (c.1, updateRoster
        (newClient s.nextClientId (newNick s preferredNick time).1) c.2) := by
  rw [chatIpcRegisterClient] at h
  generalize newNick s preferredNick time = nick at h ⊢
  obtain ⟨nick, nickCounter⟩ := nick
  split at h
  · cases h
  obtain ⟨r, hrun, rfl⟩ := Option.map_eq_some_iff.mp h
  obtain ⟨s₁, hbroadcast, hrest⟩ := Option.bind_eq_some_iff.mp hrun
  obtain ⟨s₂, hsystem, hlast⟩ := Option.bind_eq_some_iff.mp hrest
  cases hlast
  obtain ⟨client, hclient, hs₁⟩ := broadcastPresence_clients hbroadcast
  rw [Chat.client, List.lookup_cons_self] at hclient
  cases hclient
  rw [appendToRooms_clients hsystem, hs₁, List.map_cons, if_neg (by simp)]
  congr 1
  apply List.map_congr_left
  intro c hc
  rw [if_pos (hfresh c hc)]

theorem unregister_clients {s s' : Chat} {p : Nat}
    (h : chatIpcUnregisterClient s (some p) = some s') :
    ∃ client, (p, client) ∈ s.clients ∧ s'.clients = (s.clients.map fun c =>
      if c.1 = p then (c.1, { c.2 with status := .offline })
      else (c.1, updateRoster { client with status := .offline } c.2)).filter fun c => c.1 ≠ p := by
  obtain ⟨_, -, h⟩ := Option.bind_eq_some_iff.mp h
  obtain ⟨s₁, hsystem, h⟩ := Option.bind_eq_some_iff.mp h
  obtain ⟨s₂, hbroadcast, h⟩ := Option.bind_eq_some_iff.mp h
  cases h
  obtain ⟨client, hclient, hs₂⟩ := modify_broadcast_clients hbroadcast
  rw [appendToRooms_clients hsystem] at hclient hs₂
  exact ⟨client, hclient, by rw [hs₂]⟩

-- A call keeps the rosters as the calls so far say.
theorem rosters_step {s s' : Chat} {a : Act} {as : List Act}
    (h : Rosters (fun x y => announced x y as) s.clients) (hstep : PresenceStep s a s') :
    Rosters (fun x y => announced x y (a :: as)) s'.clients := by
  obtain ⟨hlegal, hexec⟩ := hstep
  have hsame : ∀ {clients : List (Nat × Client)} {p : Nat},
      Rosters (fun x y => x = p || announced x y as) clients → a.newcomer = none →
      a.speaker = some p → Rosters (fun x y => announced x y (a :: as)) clients := by
    intro clients p hr hnew hspeaker
    refine hr.congr fun x _ y _ _ => ?_
    simp [announced, hnew, hspeaker, eq_comm]
  cases a with
  | register p preferredNick time =>
      obtain ⟨hroom, hfresh⟩ := hlegal
      cases p with
      | none =>
          cases hexec
          exact h.congr fun x _ y _ _ => by simp [announced, Act.newcomer, Act.speaker]
      | some p =>
          have hfree : ∀ c ∈ s.clients, c.1 ≠ p ∧ c.2.nick ≠ (newNick s preferredNick time).1 :=
            fun c hc => ⟨fun heq => (hfresh c hc).1 (by rw [heq]), (hfresh c hc).2⟩
          rw [register_clients (fun c hc => (hfree c hc).1) hexec]
          refine (h.register (newNick_copy _ _ _) hroom hfree).congr fun x _ y _ _ => ?_
          simp [announced, Act.newcomer, Act.speaker, eq_comm]
  | unregister client =>
      cases client with
      | none =>
          cases hexec
          exact h.congr fun x _ y _ _ => by simp [announced, Act.newcomer, Act.speaker]
      | some p =>
          obtain ⟨c, hc, hs'⟩ := unregister_clients hexec
          rw [hs']
          have hbroadcast := h.broadcast (f := fun c => { c with status := .offline }) hc rfl rfl
            hlegal
          exact hsame (hbroadcast.filter _) rfl rfl
  | toggleConnected p =>
      obtain ⟨c, hc, hs'⟩ := modify_broadcast_clients hexec
      rw [hs']
      exact hsame (h.broadcast (f := Client.toggleConnected) hc rfl rfl hlegal) rfl rfl
  | pickStatus p =>
      obtain ⟨c, hc, hs'⟩ := modify_broadcast_clients hexec
      rw [hs']
      exact hsame (h.broadcast (f := Client.pickStatus) hc rfl rfl hlegal) rfl rfl

theorem rosters_run {s₀ s : Chat} {tr : List (Chat × Act)} (h0 : s₀.clients = [])
    (htr : Trace PresenceStep s₀ tr s) :
    Rosters (fun x y => announced x y (tr.map Prod.snd)) s.clients := by
  induction htr with
  | start =>
      rw [h0]
      exact ⟨by simp, by simp, by simp, by simp, by simp⟩
  | next _ hlast ih => exact rosters_step ih hlast

theorem seen_defaults_iff {nick : List UB} {st : Status} :
    seen defaults nick = [st] ↔ nick ∈ defaults.map RosterItem.nick ∧ st = .online := by
  by_cases hmem : nick ∈ defaults.map RosterItem.nick
  · have hall : ∀ n ∈ defaults.map RosterItem.nick, seen defaults n = [.online] := by decide
    rw [hall nick hmem]
    simp [hmem, eq_comm]
  · have hnil : seen defaults nick = [] :=
      seen_eq_nil fun item hitem heq => hmem (heq ▸ List.mem_map_of_mem hitem)
    rw [hnil]
    simp [hmem]

-- The rosters are right if and only if no client has been silent since another one registered,
-- but those that a new roster lists as online.
theorem rosters_current_iff {s₀ s : Chat} {tr : List (Chat × Act)} (h0 : s₀.clients = [])
    (htr : Trace PresenceStep s₀ tr s) :
    Synced s ↔ ∀ x ∈ s.clients, ∀ y ∈ s.clients, x.1 ≠ y.1 →
      announced x.1 y.1 (tr.map Prod.snd) ∨
        x.2.nick ∈ defaults.map RosterItem.nick ∧ x.2.status = .online := by
  have hviews := (rosters_run h0 htr).views
  rw [Synced]
  refine forall₂_congr fun x hx => forall₂_congr fun y hy => forall_congr' fun hne => ?_
  rw [hviews x hx y hy hne]
  split
  · rename_i hheard
    simp [hheard]
  · rename_i hheard
    rw [seen_defaults_iff]
    simp [hheard]

-- A call made where it is legal.
def legalExec (s : Chat) (a : Act) : Option Chat := if a.Legal s then execAct s a else none

theorem trace_of_legalExec {as : List Act} {s : Chat} (hrun : as.foldlM legalExec zero = some s) :
    ∃ tr, Trace PresenceStep zero tr s ∧ tr.map Prod.snd = as.reverse := by
  have hstep : ∀ a ∈ as, ∀ s s', legalExec s a = some s' → PresenceStep s a s' := by
    intro a _ s s' hs'
    rw [legalExec] at hs'
    split at hs'
    · rename_i hlegal
      exact ⟨hlegal, hs'⟩
    · cases hs'
  obtain ⟨tr, htr, hlabels⟩ := Trace.start.foldlM hstep hrun
  exact ⟨tr, htr, by simpa using hlabels⟩

-- Bob registers after Alice.
def meeting : List Act :=
  [.register (some 1) (some (ascii "Alice")) 0, .register (some 2) (some (ascii "Bob")) 0]

-- Alice picks another state when Bob is there.
theorem rosters_current_after_pick :
    ∃ tr s, Trace PresenceStep zero tr s ∧ tr.map Prod.snd = .pickStatus 1 :: meeting.reverse ∧
      Synced s := by
  have heval : ((meeting ++ [Act.pickStatus 1]).foldlM legalExec zero).map
      (fun s => s.clients.map Prod.fst) = some [2, 1] := by
    decide
  obtain ⟨s, hrun, hclients⟩ := Option.map_eq_some_iff.mp heval
  obtain ⟨tr, htr, hlabels⟩ := trace_of_legalExec hrun
  rw [List.reverse_append] at hlabels
  refine ⟨tr, s, htr, hlabels, (rosters_current_iff rfl htr).mpr fun x hx y hy hne => ?_⟩
  have hone : ∀ z ∈ s.clients, z.1 = 2 ∨ z.1 = 1 := by
    intro z hz
    have hmem : z.1 ∈ s.clients.map Prod.fst := List.mem_map_of_mem hz
    rw [hclients] at hmem
    simpa using hmem
  rw [hlabels]
  rcases hone x hx with hx' | hx' <;> rcases hone y hy with hy' | hy'
  · exact absurd (hx'.trans hy'.symm) hne
  · rw [hx', hy']
    exact .inl (by decide)
  · rw [hx', hy']
    exact .inl (by decide)
  · exact absurd (hx'.trans hy'.symm) hne

-- Nobody tells Bob that Alice is there.
theorem late_joiner_misses_client :
    ∃ tr s, Trace PresenceStep zero tr s ∧ tr.map Prod.snd = meeting.reverse ∧ ¬Synced s := by
  have heval : (meeting.foldlM legalExec zero).map (fun s => decide (Synced s)) = some false := by
    decide
  obtain ⟨s, hrun, hview⟩ := Option.map_eq_some_iff.mp heval
  obtain ⟨tr, htr, hlabels⟩ := trace_of_legalExec hrun
  exact ⟨tr, s, htr, hlabels, of_decide_eq_false hview⟩

end BTron.Chat
