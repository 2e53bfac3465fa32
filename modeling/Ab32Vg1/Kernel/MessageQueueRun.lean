import Ab32Vg1.Kernel.MessageQueue
import Ab32Vg1.ProofKit.Ownership
import Mathlib.Data.List.Sort

/-! Runs of the message queue.  A node changes hands in one critical section; between two of them
an operation writes only the node that it holds. -/

namespace Ab32Vg1.Kernel

open ProofKit Rtos

/-! ### The abstract queue -/

namespace MqHistory

structure Ok (h : MqHistory) : Prop where
  once : (h.taken ++ h.discarded ++ h.queue).Perm h.linked
  ids : h.linked.map Message.id = List.range h.linked.length
  order : ((h.taken ++ h.queue).filter (!·.urgent)).Pairwise (·.id < ·.id)
  urgent_first : h.queue.Pairwise fun m n => n.urgent → m.urgent ∧ n.id < m.id
  received : ∀ d ∈ h.received, d.message ∈ h.taken ∧
    d.message.bytes.take d.buffer.length <+: d.buffer

variable {h : MqHistory}

theorem Ok.id_lt (hok : h.Ok) {m : Message} (hm : m ∈ h.linked) : m.id < h.linked.length := by
  have hmem : m.id ∈ h.linked.map Message.id := List.mem_map_of_mem hm
  rw [hok.ids] at hmem
  exact List.mem_range.mp hmem

theorem Ok.linked_of_mem (hok : h.Ok) {m : Message} (hm : m ∈ h.taken ++ h.queue) :
    m ∈ h.linked := by
  apply hok.once.mem_iff.mp
  rcases List.mem_append.mp hm with hm | hm
  · exact List.mem_append_left _ (List.mem_append_left _ hm)
  · exact List.mem_append_right _ hm

theorem Ok.link (hok : h.Ok) (urgent : Bool) (bytes : List Byte) : (h.link urgent bytes).Ok := by
  have hids : (h.linked ++ [(⟨h.linked.length, urgent, bytes⟩ : Message)]).map Message.id =
      List.range (h.linked ++ [(⟨h.linked.length, urgent, bytes⟩ : Message)]).length := by
    rw [List.map_append, hok.ids, List.length_append, List.length_singleton, List.range_succ]
    rfl
  have hlt : ∀ m ∈ h.taken ++ h.queue, m.id < h.linked.length := fun m hm =>
    hok.id_lt (hok.linked_of_mem hm)
  cases urgent with
  | true =>
    refine ⟨?_, hids, ?_, ?_, hok.received⟩
    · refine List.perm_middle.trans ?_
      exact (hok.once.cons _).trans (List.perm_append_singleton _ _).symm
    · have hfilter : ((h.taken ++ (⟨h.linked.length, true, bytes⟩ : Message) :: h.queue).filter
          (!·.urgent)) = (h.taken ++ h.queue).filter (!·.urgent) := by
        simp
      exact hfilter ▸ hok.order
    · refine List.pairwise_cons.mpr ⟨fun n hn _ => ⟨rfl, ?_⟩, hok.urgent_first⟩
      exact hlt n (List.mem_append_right _ hn)
  | false =>
    refine ⟨?_, hids, ?_, ?_, hok.received⟩
    · rw [MqHistory.link, if_neg (by simp), ← List.append_assoc]
      exact hok.once.append_right _
    · rw [MqHistory.link, if_neg (by simp), ← List.append_assoc, List.filter_append]
      refine List.pairwise_append.mpr ⟨hok.order, by simp, fun m hm n hn => ?_⟩
      obtain rfl : n = ⟨h.linked.length, false, bytes⟩ := by simpa using hn
      exact hlt m (List.mem_of_mem_filter hm)
    · rw [MqHistory.link, if_neg (by simp)]
      refine List.pairwise_append.mpr ⟨hok.urgent_first, by simp, fun m hm n hn hu => ?_⟩
      obtain rfl : n = ⟨h.linked.length, false, bytes⟩ := by simpa using hn
      cases hu

theorem take_eq {m : Message} {queue : List Message} (hq : h.queue = m :: queue) :
    h.take = { h with queue := queue, taken := h.taken ++ [m] } := by
  simp [take, first, hq]

theorem Ok.take {m : Message} {queue : List Message} (hok : h.Ok) (hq : h.queue = m :: queue) :
    h.take.Ok := by
  rw [take_eq hq]
  obtain ⟨h1, h2, h3, h4, h5⟩ := hok
  rw [hq] at h1 h3 h4
  refine ⟨?_, h2, by simpa using h3, h4.of_cons, fun d hd => ?_⟩
  · refine List.Perm.trans ?_ h1
    simp only [List.append_assoc, List.singleton_append]
    exact (List.perm_middle.symm).append_left _
  · exact ⟨List.mem_append_left _ (h5 d hd).1, (h5 d hd).2⟩

theorem Ok.discard (hok : h.Ok) : h.discard.Ok := by
  refine ⟨?_, hok.ids, ?_, List.Pairwise.nil, hok.received⟩
  · simpa [MqHistory.discard, List.append_assoc] using hok.once
  · refine hok.order.sublist (List.Sublist.filter _ ?_)
    simp [MqHistory.discard]

theorem Ok.receive {m : Message} {buffer : List Byte} (hok : h.Ok) (hm : m ∈ h.taken)
    (hb : m.bytes.take buffer.length <+: buffer) : (h.receive m buffer).Ok := by
  refine ⟨hok.once, hok.ids, hok.order, hok.urgent_first, fun d hd => ?_⟩
  rcases List.mem_append.mp hd with hd | hd
  · exact hok.received d hd
  · obtain rfl : d = ⟨m, buffer⟩ := by simpa using hd
    exact ⟨hm, hb⟩

end MqHistory

/-! ### Payloads -/

namespace MessageQueue

variable {mq mq' : MessageQueue} {msg : MqNode} {bytes buffer : List Byte}

theorem Carries.congr (h : mq.Carries msg bytes) (hp : mq'.payload msg = mq.payload msg) :
    mq'.Carries msg bytes := by
  intro i hi
  rw [hp]
  exact h i hi

/-- Two byte strings at one place agree as far as they go. -/
theorem Carries.agree (h : mq.Carries msg bytes) (hb : mq.Carries msg buffer) :
    bytes.take buffer.length <+: buffer := by
  have heq : bytes.take buffer.length = buffer.take bytes.length := by
    apply List.ext_getElem
    · simp [Nat.min_comm]
    · intro i h1 h2
      rw [List.getElem_take, List.getElem_take]
      rw [List.length_take] at h1
      exact (h i (by omega)).symm.trans (hb i (by omega))
  rw [heq]
  exact List.take_prefix ..

theorem Carries.snoc (h : mq.Carries msg buffer) :
    mq.Carries msg (buffer ++ [mq.payload msg buffer.length]) := by
  intro i hi
  by_cases hlt : i < buffer.length
  · rw [List.getElem_append_left hlt]
    exact h i hlt
  · obtain rfl : i = buffer.length := by
      rw [List.length_append, List.length_singleton] at hi
      omega
    simp

end MessageQueue

/-! ### The lists of nodes -/

/-- The free list and the queue, as the links give them. -/
structure MqLists (mq : MessageQueue) (free messages : List MqNode) : Prop where
  free_links : Linked mq.next mq.msg_queue_free free
  links : Linked mq.next mq.msg_queue_head messages
  tail : mq.msg_queue_tail = messages.getLast?

namespace MqLists

variable {mq mq' : MessageQueue} {free messages : List MqNode} {msg : MqNode}

theorem congr (h : MqLists mq free messages) (hnext : mq'.next = mq.next)
    (hhead : mq'.msg_queue_head = mq.msg_queue_head)
    (htail : mq'.msg_queue_tail = mq.msg_queue_tail)
    (hfree : mq'.msg_queue_free = mq.msg_queue_free) : MqLists mq' free messages := by
  obtain ⟨h1, h2, h3⟩ := h
  constructor <;> simp only [hnext, hhead, htail, hfree] <;> assumption

theorem putFree (h : MqLists mq free messages) (hmsg : msg ∉ free ++ messages) :
    MqLists (mq.putFree msg) (msg :: free) messages where
  free_links := h.free_links.push fun hm => hmsg (List.mem_append_left _ hm)
  links := h.links.update_of_not_mem fun hm => hmsg (List.mem_append_right _ hm)
  tail := h.tail

theorem takeFree (h : MqLists mq (msg :: free) messages) :
    MqLists { mq with msg_queue_free := mq.next msg } free messages :=
  ⟨h.free_links.tail, h.links, h.tail⟩

theorem takeFirst (h : MqLists mq free (msg :: messages)) (hnd : (msg :: messages).Nodup) :
    MqLists (mq.takeFirst msg) free messages := by
  refine ⟨h.free_links, h.links.tail, ?_⟩
  rw [← getLast?_tail_of_nodup hnd, ← h.tail]
  rfl

theorem endLink (h : MqLists mq free messages) (hmsg : msg ∉ free ++ messages) :
    MqLists (mq.endLink msg) free messages where
  free_links := h.free_links.update_of_not_mem fun hm => hmsg (List.mem_append_left _ hm)
  links := h.links.update_of_not_mem fun hm => hmsg (List.mem_append_right _ hm)
  tail := h.tail

theorem linkFirst (h : MqLists mq free messages) (hmsg : msg ∉ free ++ messages) :
    MqLists (mq.linkFirst msg) free (msg :: messages) where
  free_links := h.free_links.update_of_not_mem fun hm => hmsg (List.mem_append_left _ hm)
  links := h.links.push fun hm => hmsg (List.mem_append_right _ hm)
  tail := by
    show (if mq.msg_queue_tail = none then some msg else mq.msg_queue_tail) = _
    rw [h.tail]
    cases messages with
    | nil => rfl
    | cons m ms => simp

/-- The node of a send ends the queue: its link is null. -/
theorem linkLast (h : MqLists mq free messages) (hnd : (free ++ messages).Nodup)
    (hmsg : msg ∉ free ++ messages) (hend : mq.next msg = none) :
    MqLists (mq.linkLast msg) free (messages ++ [msg]) := by
  have hmsg' : msg ∉ messages := fun hm => hmsg (List.mem_append_right _ hm)
  obtain ⟨-, hnd', hdisj⟩ := List.nodup_append.mp hnd
  cases hlast : messages.getLast? with
  | none =>
    obtain rfl := List.getLast?_eq_none_iff.mp hlast
    have hhead : mq.msg_queue_head = none := h.links
    refine ⟨?_, ?_, rfl⟩
    · simp only [MessageQueue.linkLast, h.tail, List.getLast?_nil]
      exact h.free_links
    · simp only [MessageQueue.linkLast, h.tail, hhead, List.getLast?_nil, if_true]
      exact ⟨rfl, hend⟩
  | some last =>
    have hmem : last ∈ messages := List.mem_of_getLast? hlast
    have hhead : mq.msg_queue_head ≠ none := by
      rw [h.links.head_eq]
      intro hnone
      rw [List.head?_eq_none_iff.mp hnone] at hmem
      cases hmem
    refine ⟨?_, ?_, ?_⟩
    · simp only [MessageQueue.linkLast, h.tail, hlast]
      exact h.free_links.update_of_not_mem fun hm => hdisj last hm last hmem rfl
    · simp only [MessageQueue.linkLast, h.tail, hlast, if_neg hhead]
      exact h.links.snoc hlast hnd' hmsg' hend
    · simp [MessageQueue.linkLast]

/-- A reset moves every node of the queue to the free list, and ends. -/
theorem releaseAll {n : Nat} (h : MqLists mq free messages) (hnd : (free ++ messages).Nodup)
    (hn : messages.length ≤ n) : ∃ mq', mq.releaseAll n = some mq' ∧
      MqLists mq' (messages.reverse ++ free) [] ∧ mq'.payload = mq.payload ∧
      (∀ msg, msg ∉ messages → mq'.next msg = mq.next msg) ∧ mq'.max_msgs = mq.max_msgs ∧
      mq'.msg_size = mq.msg_size := by
  induction messages generalizing mq free n with
  | nil =>
    refine ⟨mq, ?_, h, rfl, fun _ _ => rfl, rfl, rfl⟩
    have hhead : mq.msg_queue_head = none := h.links
    unfold MessageQueue.releaseAll
    rw [hhead]
  | cons msg messages ih =>
    obtain ⟨hnd1, hnd2, hdisj⟩ := List.nodup_append.mp hnd
    have hfree : msg ∉ free := fun hm => hdisj msg hm msg List.mem_cons_self rfl
    have hmsg : msg ∉ free ++ messages := by
      rw [List.mem_append, not_or]
      exact ⟨hfree, (List.nodup_cons.mp hnd2).1⟩
    have hnd' : ((msg :: free) ++ messages).Nodup :=
      (List.perm_middle.nodup_iff).mp hnd
    obtain ⟨k, rfl⟩ : ∃ k, n = k + 1 := by
      rw [List.length_cons] at hn
      exact ⟨n - 1, by omega⟩
    obtain ⟨mq', hrun, hlists, hpay, hnext, hmax, hsize⟩ :=
      ih ((h.takeFirst hnd2).putFree hmsg) hnd' (Nat.le_of_succ_le_succ hn)
    refine ⟨mq', ?_, ?_, hpay, fun x hx => ?_, hmax, hsize⟩
    · have hhead : mq.msg_queue_head = some msg := h.links.1
      rw [MessageQueue.releaseAll.eq_def]
      dsimp only
      rw [hhead]
      exact hrun
    · simpa using hlists
    · rw [List.mem_cons, not_or] at hx
      rw [hnext x hx.2]
      exact Function.update_of_ne hx.1 _ _

end MqLists

/-! ### The invariant -/

/-- The copy of a caller has got so far.  A send has set the link of its node. -/
def MqPc.Copies (mq : MessageQueue) (taken : List Message) : MqPc → Prop
  | .storing urgent buffer msg stored => (urgent = false → mq.next msg = none) ∧
      mq.Carries msg (buffer.take stored)
  | .loading _ msg buffer message =>
      message ∈ taken ∧ mq.Carries msg message.bytes ∧ mq.Carries msg buffer
  | _ => True

structure MqInv (mq : MessageQueue) (pc : MqCaller → MqPc) (history : MqHistory)
    (free messages : List MqNode) : Prop where
  lists : MqLists mq free messages
  entry : mq.entry = messages.length
  owned : Owned (· < mq.max_msgs) (free ++ messages) (MqPc.held ∘ pc)
  queue : List.Forall₂ (fun msg m => mq.Carries msg m.bytes) messages history.queue
  copies : ∀ o, (pc o).Copies mq history.taken
  max : mq.max_msgs ≤ RT_MQ_ENTRY_MAX
  history : history.Ok

section

variable {mq mq' : MessageQueue} {pc : MqCaller → MqPc} {history : MqHistory} {o : MqCaller}
  {free messages : List MqNode} {msg : MqNode} {new : MqPc} {taken taken' : List Message}

theorem MqPc.Copies.of_none (h : new.held = none) : new.Copies mq taken := by
  cases new with
  | linking buffer msg => trivial
  | storing urgent buffer msg stored => cases h
  | loading size msg buffer message => cases h
  | _ => trivial

/-- A copy goes on undisturbed while nobody writes its node. -/
theorem MqPc.Copies.frame (h : new.Copies mq taken)
    (hnode : ∀ msg, new.held = some msg →
      mq'.next msg = mq.next msg ∧ mq'.payload msg = mq.payload msg)
    (ht : ∀ m ∈ taken, m ∈ taken') : new.Copies mq' taken' := by
  cases new with
  | storing urgent buffer msg stored =>
    obtain ⟨hnext, hpay⟩ := hnode msg rfl
    exact ⟨fun hu => hnext.trans (h.1 hu), h.2.congr hpay⟩
  | loading size msg buffer message =>
    obtain ⟨-, hpay⟩ := hnode msg rfl
    exact ⟨ht _ h.1, h.2.1.congr hpay, h.2.2.congr hpay⟩
  | _ => trivial

theorem copies_update (h : ∀ o', o' ≠ o → (pc o').Copies mq taken) (hnew : new.Copies mq taken)
    (o' : MqCaller) : (Function.update pc o new o').Copies mq taken := by
  by_cases hoo : o' = o
  · subst hoo
    rw [Function.update_self]
    exact hnew
  · rw [Function.update_of_ne hoo]
    exact h o' hoo

theorem held_update : MqPc.held ∘ Function.update pc o new =
    Function.update (MqPc.held ∘ pc) o new.held := Function.comp_update ..

/-- A caller with no node begins to wait, or is done. -/
theorem MqInv.wait (h : MqInv mq pc history free messages) (hold : (pc o).held = none)
    (hnew : new.held = none) : MqInv mq (Function.update pc o new) history free messages := by
  refine ⟨h.lists, h.entry, ?_, h.queue, ?_, h.max, h.history⟩
  · rw [held_update, hnew, ← hold]
    exact (Function.update_eq_self o (MqPc.held ∘ pc)).symm ▸ h.owned
  · exact copies_update (fun o' _ => h.copies o') (.of_none hnew)

theorem MqInv.takeFree (h : MqInv mq pc history free messages) (new : MqPc) (hfree : mq.msg_queue_free = some msg)
    (hold : (pc o).held = none) (hnew : new.held = some msg) (hcopies : new.Copies mq history.taken) :
    ∃ free', MqInv { mq with msg_queue_free := mq.next msg } (Function.update pc o new) history
      free' messages := by
  cases free with
  | nil =>
    have hnone : mq.msg_queue_free = none := h.lists.free_links
    rw [hnone] at hfree
    cases hfree
  | cons msg' free =>
    obtain rfl : msg = msg' := Option.some.inj (hfree.symm.trans h.lists.free_links.1)
    refine ⟨free, h.lists.takeFree, h.entry, ?_, h.queue, ?_, h.max, h.history⟩
    · rw [held_update, hnew]
      exact h.owned.take hold
    · refine copies_update (fun o' _ => ?_) ?_
      · exact (h.copies o').frame (fun _ _ => ⟨rfl, rfl⟩) fun _ hm => hm
      · exact hcopies.frame (fun _ _ => ⟨rfl, rfl⟩) fun _ hm => hm

/-- A receiver takes the first message. -/
theorem MqInv.takeFirst (h : MqInv mq pc history free messages) (size : Nat)
    (hsome : mq.entry ≠ 0) (hhead : mq.msg_queue_head = some msg) (hold : (pc o).held = none) :
    ∃ message queue messages', history.queue = message :: queue ∧
      MqInv { mq.takeFirst msg with entry := mq.entry - 1 }
        (Function.update pc o (.loading size msg [] message))
        { history with queue := queue, taken := history.taken ++ [message] } free messages' := by
  cases messages with
  | nil => exact absurd h.entry hsome
  | cons msg' messages =>
    obtain rfl : msg = msg' := Option.some.inj (hhead.symm.trans h.lists.links.1)
    obtain ⟨message, queue, hcarry, hrest, hq⟩ := List.forall₂_cons_left_iff.mp h.queue
    have hnd := (List.nodup_append.mp h.owned.nodup).2.1
    refine ⟨message, queue, messages, hq, ?_, ?_, ?_, hrest, ?_, h.max, ?_⟩
    · exact (h.lists.takeFirst hnd).congr rfl rfl rfl rfl
    · have hentry := h.entry
      rw [List.length_cons] at hentry
      show mq.entry - 1 = messages.length
      omega
    · rw [held_update]
      exact (h.owned.perm List.perm_middle).take hold
    · refine copies_update (fun o' _ => ?_) ?_
      · exact (h.copies o').frame (fun _ _ => ⟨rfl, rfl⟩) fun _ hm => List.mem_append_left _ hm
      · exact ⟨by simp, hcarry, fun i hi => by simp at hi⟩
    · rw [← MqHistory.take_eq hq]
      exact h.history.take hq

/-- A held node is outside the lists. -/
theorem MqInv.not_mem (h : MqInv mq pc history free messages) (hold : (pc o).held = some msg) :
    msg ∉ free ++ messages := (h.owned.alone o msg hold).1

/-- A caller writes its node, and nobody else notices. -/
theorem MqInv.write (h : MqInv mq pc history free messages) (hold : (pc o).held = some msg)
    (hnew : new.held = some msg) (hlists : MqLists mq' free messages)
    (hframe : ∀ x, x ≠ msg → mq'.next x = mq.next x ∧ mq'.payload x = mq.payload x)
    (hentry : mq'.entry = mq.entry) (hmax : mq'.max_msgs = mq.max_msgs)
    (hcopies : new.Copies mq' history.taken) :
    MqInv mq' (Function.update pc o new) history free messages := by
  have hmsg := h.not_mem hold
  refine ⟨hlists, hentry.trans h.entry, ?_, ?_, ?_, hmax ▸ h.max, h.history⟩
  · rw [held_update, hnew, hmax, ← hold]
    exact (Function.update_eq_self o (MqPc.held ∘ pc)).symm ▸ h.owned
  · have hqueue := (List.forall₂_and_left messages _).mpr ⟨fun x hx => hx, h.queue⟩
    refine hqueue.imp fun x m hx => ?_
    have hne : x ≠ msg := fun heq => hmsg (heq ▸ List.mem_append_right _ hx.1)
    exact hx.2.congr (hframe x hne).2
  · refine copies_update (fun o' hoo => (h.copies o').frame (fun x hx => ?_) fun _ hm => hm) hcopies
    have hne : x ≠ msg := fun heq => hoo ((h.owned.alone o msg hold).2 o' (heq ▸ hx))
    exact hframe x hne

/-- A receiver puts its node into the free list. -/
theorem MqInv.putFree {history' : MqHistory} (h : MqInv mq pc history free messages)
    (hold : (pc o).held = some msg) (hok : history'.Ok) (hqueue : history'.queue = history.queue)
    (htaken : history'.taken = history.taken) :
    MqInv (mq.putFree msg) (Function.update pc o .idle) history' (msg :: free) messages := by
  refine ⟨h.lists.putFree (h.not_mem hold), h.entry, ?_, ?_, ?_, h.max, hok⟩
  · rw [held_update]
    exact h.owned.give hold
  · rw [hqueue]
    exact h.queue
  · rw [htaken]
    refine copies_update (fun o' hoo => ?_) (.of_none rfl)
    refine (h.copies o').frame (fun x hx => ⟨?_, rfl⟩) fun _ hm => hm
    have hne : x ≠ msg := fun heq => hoo ((h.owned.alone o msg hold).2 o' (heq ▸ hx))
    exact Function.update_of_ne hne _ _

/-- The node of a caller becomes part of the queue. -/
theorem MqInv.linked {messages' : List MqNode} {history' : MqHistory}
    (h : MqInv mq pc history free messages) (hold : (pc o).held = some msg)
    (hlists : MqLists mq' free messages') (hperm : (msg :: messages).Perm messages')
    (hnext : ∀ x, x ∉ msg :: messages → mq'.next x = mq.next x) (hpay : mq'.payload = mq.payload)
    (hentry : mq'.entry = mq.entry + 1) (hmax : mq'.max_msgs = mq.max_msgs)
    (hqueue : List.Forall₂ (fun msg m => mq'.Carries msg m.bytes) messages' history'.queue)
    (hok : history'.Ok) (htaken : history'.taken = history.taken) :
    MqInv mq' (Function.update pc o .idle) history' free messages' := by
  refine ⟨hlists, ?_, ?_, hqueue, ?_, hmax ▸ h.max, hok⟩
  · rw [hentry, h.entry, ← hperm.length_eq]
    rfl
  · rw [held_update, hmax]
    exact (h.owned.give hold).perm (List.perm_middle.symm.trans (hperm.append_left free))
  · rw [htaken]
    refine copies_update (fun o' hoo => ?_) (.of_none rfl)
    refine (h.copies o').frame (fun x hx => ⟨hnext x ?_, by rw [hpay]⟩) fun _ hm => hm
    have hne : x ≠ msg := fun heq => hoo ((h.owned.alone o msg hold).2 o' (heq ▸ hx))
    rw [List.mem_cons, not_or]
    exact ⟨hne, fun hm => h.not_mem hx (List.mem_append_right _ hm)⟩

/-- The queue has room for every node that is held. -/
theorem MqInv.room (h : MqInv mq pc history free messages) (hold : (pc o).held = some msg) :
    mq.entry < RT_MQ_ENTRY_MAX := by
  have hle := (h.owned.give hold).length_le
  have hmax := h.max
  have hentry := h.entry
  simp only [List.length_cons, List.length_append] at hle
  omega

theorem MqInv.link {urgent : Bool} {buffer : List Byte} (h : MqInv mq pc history free messages)
    (hpc : pc o = .storing urgent buffer msg buffer.length) : ∃ messages',
      MqInv { (if urgent then mq.linkFirst msg else mq.linkLast msg) with entry := mq.entry + 1 }
        (Function.update pc o .idle) (history.link urgent buffer) free messages' := by
  have hold : (pc o).held = some msg := by rw [hpc]; rfl
  have hmsg := h.not_mem hold
  have hcopies := h.copies o
  rw [hpc] at hcopies
  obtain ⟨hend, hcarry⟩ := hcopies
  rw [List.take_length] at hcarry
  have hok := h.history.link urgent buffer
  cases urgent with
  | true =>
    refine ⟨msg :: messages, h.linked hold ((h.lists.linkFirst hmsg).congr rfl rfl rfl rfl)
      (List.Perm.refl _) (fun x hx => ?_) rfl rfl rfl (.cons hcarry h.queue) hok rfl⟩
    rw [List.mem_cons, not_or] at hx
    exact Function.update_of_ne hx.1 _ _
  | false =>
    refine ⟨messages ++ [msg], h.linked hold
      ((h.lists.linkLast h.owned.nodup hmsg (hend rfl)).congr rfl rfl rfl rfl)
      (List.perm_append_singleton msg messages).symm (fun x hx => ?_) rfl rfl rfl ?_ hok rfl⟩
    · rw [List.mem_cons, not_or] at hx
      simp only [MessageQueue.linkLast, Bool.false_eq_true, if_false, h.lists.tail]
      cases hlast : messages.getLast? with
      | none => rfl
      | some last =>
        have hne : x ≠ last := fun heq => hx.2 (heq ▸ List.mem_of_getLast? hlast)
        exact Function.update_of_ne hne _ _
    · exact List.rel_append h.queue (.cons hcarry .nil)

/-- A reset comes to its end, and frees the whole queue and no held node. -/
theorem MqInv.reset (h : MqInv mq pc history free messages) : ∃ mq',
    mq.releaseAll mq.max_msgs = some mq' ∧
      MqInv { mq' with entry := 0 } pc history.discard (messages.reverse ++ free) [] := by
  have hlen : messages.length ≤ mq.max_msgs := by
    have hle := h.owned.length_le
    rw [List.length_append] at hle
    omega
  obtain ⟨mq', hrun, hlists, hpay, hnext, hmax, -⟩ := h.lists.releaseAll h.owned.nodup hlen
  refine ⟨mq', hrun, hlists.congr rfl rfl rfl rfl, rfl, ?_, .nil, fun o => ?_, ?_, h.history.discard⟩
  · rw [List.append_nil, hmax]
    refine h.owned.perm (List.perm_append_comm.trans ?_)
    exact (List.reverse_perm messages).symm.append_right free
  · refine (h.copies o).frame (fun x hx => ⟨hnext x fun hm => ?_, by rw [hpay]⟩) fun _ hm => hm
    exact h.not_mem hx (List.mem_append_right _ hm)
  · exact hmax ▸ h.max

end

/-! ### The steps -/

/-- How the first part of an operation ends; `took` says how it takes a node. -/
inductive MqEnds (mq : MessageQueue) (took : MqNode → MessageQueue → Prop) :
    Rtos × MessageQueue × MqTaken → Prop where
  | returned (os : Rtos) (err : Int) : MqEnds mq took (os, mq, .returned err)
  | suspended (os : Rtos) : MqEnds mq took (os, mq, .suspended)
  | took {mq' : MessageQueue} {msg : MqNode} (os : Rtos) (h : took msg mq') :
      MqEnds mq took (os, mq', .took msg)

/-- A send takes the first free node. -/
def SendTook (mq : MessageQueue) (msg : MqNode) (mq' : MessageQueue) : Prop :=
  mq.msg_queue_free = some msg ∧ mq' = { mq with msg_queue_free := mq.next msg }

/-- A receive takes the first node of the queue. -/
def RecvTook (mq : MessageQueue) (msg : MqNode) (mq' : MessageQueue) : Prop :=
  mq.entry ≠ 0 ∧ mq.msg_queue_head = some msg ∧
    mq' = { mq.takeFirst msg with entry := mq.entry - 1 }

section

variable {mq mq' : MessageQueue} {s : Rtos} {timeout : Int} {size : Nat}
  {r : Rtos × MessageQueue × MqTaken}

theorem mqSendLoop_ends (hs : mq.sendLoop s timeout = some r) : MqEnds mq (SendTook mq) r := by
  unfold MessageQueue.sendLoop at hs
  cases hfree : mq.msg_queue_free with
  | none =>
    simp only [hfree] at hs
    obtain ⟨thread, -, hs⟩ := Option.bind_eq_some_iff.mp hs
    by_cases htime : timeout = 0
    · rw [if_pos htime] at hs
      obtain rfl := Option.some.inj hs
      exact .returned _ _
    · rw [if_neg htime] at hs
      obtain ⟨os, -, hs⟩ := Option.bind_eq_some_iff.mp hs
      obtain rfl := Option.some.inj hs
      exact .suspended os
  | some msg =>
    simp only [hfree] at hs
    obtain rfl := Option.some.inj hs
    exact .took s ⟨hfree, rfl⟩

theorem rt_mq_send_wait_ends (hs : mq.rt_mq_send_wait s size timeout = some r) :
    MqEnds mq (SendTook mq) r := by
  obtain ⟨-, hs⟩ := RT_ASSERT_bind_eq_some.mp hs
  by_cases hsize : mq.msg_size < size
  · rw [if_pos hsize] at hs
    obtain rfl := Option.some.inj hs
    exact .returned _ _
  · rw [if_neg hsize] at hs
    by_cases hnow : mq.msg_queue_free = none ∧ timeout = 0
    · rw [if_pos hnow] at hs
      obtain rfl := Option.some.inj hs
      exact .returned _ _
    · rw [if_neg hnow] at hs
      exact mqSendLoop_ends hs

theorem mqRecvLoop_ends (hs : mq.recvLoop s timeout = some r) : MqEnds mq (RecvTook mq) r := by
  unfold MessageQueue.recvLoop at hs
  by_cases hempty : mq.entry = 0
  · rw [if_pos hempty] at hs
    obtain ⟨thread, -, hs⟩ := Option.bind_eq_some_iff.mp hs
    by_cases htime : timeout = 0
    · rw [if_pos htime] at hs
      obtain rfl := Option.some.inj hs
      exact .returned _ _
    · rw [if_neg htime] at hs
      obtain ⟨os, -, hs⟩ := Option.bind_eq_some_iff.mp hs
      obtain rfl := Option.some.inj hs
      exact .suspended os
  · rw [if_neg hempty] at hs
    obtain ⟨msg, hhead, hs⟩ := Option.bind_eq_some_iff.mp hs
    dsimp only [MessageQueue.takeFirst] at hs
    rw [if_pos (by omega)] at hs
    obtain rfl := Option.some.inj hs
    exact .took s ⟨hempty, hhead, rfl⟩

theorem rt_mq_recv_ends (hs : mq.rt_mq_recv s size timeout = some r) :
    MqEnds mq (RecvTook mq) r := by
  obtain ⟨-, hs⟩ := RT_ASSERT_bind_eq_some.mp hs
  by_cases hnow : mq.entry = 0 ∧ timeout = 0
  · rw [if_pos hnow] at hs
    obtain rfl := Option.some.inj hs
    exact .returned _ _
  · rw [if_neg hnow] at hs
    exact mqRecvLoop_ends hs

end

namespace MqSystem

/-- The invariant, for the lists that the links give. -/
def Ok (c : MqSystem) : Prop :=
  ∃ free messages, MqInv c.mq c.pc c.history free messages

variable {c c' : MqSystem} {o : MqCaller} {t : Tid}

theorem Ok.afterSend {buffer : List Byte} {timeout : Int} {r : Rtos × MessageQueue × MqTaken}
    (h : c.Ok) (hold : (c.pc o).held = none) (hr : MqEnds c.mq (SendTook c.mq) r) :
    (c.afterSend o buffer timeout r).Ok ∧ (c.afterSend o buffer timeout r).history = c.history := by
  obtain ⟨free, messages, hinv⟩ := h
  cases hr with
  | returned os err => exact ⟨⟨free, messages, hinv.wait hold rfl⟩, rfl⟩
  | suspended os => exact ⟨⟨free, messages, hinv.wait hold rfl⟩, rfl⟩
  | @took mq' msg os htook =>
    obtain ⟨hfree, rfl⟩ := htook
    obtain ⟨free', hinv'⟩ := hinv.takeFree (.linking buffer msg) hfree hold rfl trivial
    exact ⟨⟨free', messages, hinv'⟩, rfl⟩

theorem Ok.afterRecv {size : Nat} {timeout : Int} {r : Rtos × MessageQueue × MqTaken}
    (h : c.Ok) (hold : (c.pc o).held = none) (hr : MqEnds c.mq (RecvTook c.mq) r) :
    (c.afterRecv o size timeout r).Ok ∧
      ((c.afterRecv o size timeout r).history = c.history ∨
        c.Takes o (c.afterRecv o size timeout r)) := by
  obtain ⟨free, messages, hinv⟩ := h
  cases hr with
  | returned os err => exact ⟨⟨free, messages, hinv.wait hold rfl⟩, Or.inl rfl⟩
  | suspended os => exact ⟨⟨free, messages, hinv.wait hold rfl⟩, Or.inl rfl⟩
  | @took mq' msg os htook =>
    obtain ⟨hsome, hhead, rfl⟩ := htook
    obtain ⟨message, queue, messages', hq, hinv'⟩ := hinv.takeFirst size hsome hhead hold
    have hfirst : c.history.first = message := by simp [MqHistory.first, hq]
    have htake := MqHistory.take_eq hq
    refine ⟨⟨free, messages', ?_⟩, Or.inr ⟨size, msg, message, queue, hq, ?_, htake⟩⟩
    · simp only [MqSystem.afterRecv, setPc, hfirst, htake]
      exact hinv'
    · simp only [MqSystem.afterRecv, setPc, hfirst, Function.update_self]

theorem Ok.send {buffer : List Byte} {timeout : Int} (h : c.Ok)
    (hs : c.send o buffer timeout = some c') : c'.Ok ∧ c'.history = c.history := by
  unfold MqSystem.send at hs
  by_cases hcall : c.MayCall o timeout
  · rw [if_pos hcall] at hs
    obtain ⟨r, hr, rfl⟩ := Option.map_eq_some_iff.mp hs
    exact h.afterSend (by rw [hcall.1]; rfl) (rt_mq_send_wait_ends hr)
  · rw [if_neg hcall] at hs
    cases hs

theorem Ok.sendResumed (h : c.Ok) (hs : c.sendResumed t = some c') :
    c'.Ok ∧ c'.history = c.history := by
  unfold MqSystem.sendResumed at hs
  cases hpc : c.pc (.thread t) with
  | sending buffer timeout tick_delta =>
    have hold : (c.pc (.thread t)).held = none := by rw [hpc]; rfl
    simp only [hpc] at hs
    by_cases hrun : Kernel.Runs c.os t
    · rw [if_pos hrun] at hs
      obtain ⟨r, hr, rfl⟩ := Option.map_eq_some_iff.mp hs
      apply h.afterSend hold
      unfold MessageQueue.sendResumed at hr
      by_cases herr : (c.os.threads t).error = RT_EOK
      · rw [if_neg (not_not.mpr herr)] at hr
        exact mqSendLoop_ends hr
      · rw [if_pos herr] at hr
        obtain rfl := Option.some.inj hr
        exact .returned _ _
    · rw [if_neg hrun] at hs
      cases hs
  | _ => simp [hpc] at hs

theorem Ok.urgent {buffer : List Byte} (h : c.Ok) (hs : c.urgent o buffer = some c') :
    c'.Ok ∧ c'.history = c.history := by
  unfold MqSystem.urgent at hs
  by_cases hcall : c.MayCall o 0
  · rw [if_pos hcall] at hs
    obtain ⟨r, hr, rfl⟩ := Option.map_eq_some_iff.mp hs
    obtain ⟨-, hr⟩ := RT_ASSERT_bind_eq_some.mp hr
    by_cases hsize : c.mq.msg_size < buffer.length
    · rw [if_pos hsize] at hr
      obtain rfl := Option.some.inj hr
      exact ⟨h, rfl⟩
    · rw [if_neg hsize] at hr
      cases hfree : c.mq.msg_queue_free with
      | none =>
        simp only [hfree] at hr
        obtain rfl := Option.some.inj hr
        exact ⟨h, rfl⟩
      | some msg =>
        simp only [hfree] at hr
        obtain rfl := Option.some.inj hr
        obtain ⟨free, messages, hinv⟩ := h
        obtain ⟨free', hinv'⟩ := hinv.takeFree (o := o) (.storing true buffer msg 0) hfree
          (by rw [hcall.1]; rfl) rfl ⟨(fun hu => by cases hu), fun i hi => by simp at hi⟩
        exact ⟨⟨free', messages, hinv'⟩, rfl⟩
  · rw [if_neg hcall] at hs
    cases hs

theorem Ok.endLink (h : c.Ok) (hs : c.endLink o = some c') : c'.Ok ∧ c'.history = c.history := by
  unfold MqSystem.endLink at hs
  cases hpc : c.pc o with
  | linking buffer msg =>
    simp only [hpc] at hs
    by_cases hrun : o.Runs c.os
    · rw [if_pos hrun] at hs
      obtain rfl := Option.some.inj hs
      obtain ⟨free, messages, hinv⟩ := h
      have hold : (c.pc o).held = some msg := by rw [hpc]; rfl
      refine ⟨⟨free, messages, hinv.write hold rfl (hinv.lists.endLink (hinv.not_mem hold))
        (fun x hx => ⟨Function.update_of_ne hx _ _, rfl⟩) rfl rfl ?_⟩, rfl⟩
      exact ⟨fun _ => Function.update_self .., fun i hi => by simp at hi⟩
    · rw [if_neg hrun] at hs
      cases hs
  | _ => simp [hpc] at hs

/-- A prefix of a copy grows by one byte. -/
theorem carries_take_succ {mq : MessageQueue} {msg : MqNode} {buffer : List Byte} {stored : Nat}
    {byte : Byte} (h : mq.Carries msg (buffer.take stored)) (hbyte : buffer[stored]? = some byte) :
    (mq.storeByte msg stored byte).Carries msg (buffer.take (stored + 1)) := by
  obtain ⟨hlt, hget⟩ := List.getElem?_eq_some_iff.mp hbyte
  intro i hi
  rw [List.length_take] at hi
  rw [List.getElem_take]
  simp only [MessageQueue.storeByte, Function.update_self]
  by_cases hij : i = stored
  · subst hij
    rw [Function.update_self]
    exact hget.symm
  · rw [Function.update_of_ne hij]
    have hold := h i (by rw [List.length_take]; omega)
    rwa [List.getElem_take] at hold

theorem Ok.storeByte (h : c.Ok) (hs : c.storeByte o = some c') : c'.Ok ∧ c'.history = c.history := by
  unfold MqSystem.storeByte at hs
  cases hpc : c.pc o with
  | storing urgent buffer msg stored =>
    simp only [hpc] at hs
    by_cases hrun : o.Runs c.os
    · rw [if_pos hrun] at hs
      obtain ⟨byte, hbyte, hs⟩ := Option.bind_eq_some_iff.mp hs
      obtain rfl := Option.some.inj hs
      obtain ⟨free, messages, hinv⟩ := h
      have hold : (c.pc o).held = some msg := by rw [hpc]; rfl
      have hcopies := hinv.copies o
      rw [hpc] at hcopies
      refine ⟨⟨free, messages, hinv.write hold rfl (hinv.lists.congr rfl rfl rfl rfl)
        (fun x hx => ⟨rfl, Function.update_of_ne hx _ _⟩) rfl rfl ?_⟩, rfl⟩
      exact ⟨hcopies.1, carries_take_succ hcopies.2 hbyte⟩
    · rw [if_neg hrun] at hs
      cases hs
  | _ => simp [hpc] at hs

theorem Ok.link (h : c.Ok) (hs : c.link o = some c') : c'.Ok ∧ c.Refines (.link o) c' := by
  unfold MqSystem.link at hs
  cases hpc : c.pc o with
  | storing urgent buffer msg stored =>
    simp only [hpc] at hs
    by_cases hrun : o.Runs c.os ∧ stored = buffer.length
    · rw [if_pos hrun] at hs
      obtain ⟨⟨os, mq, err⟩, hlink, hs⟩ := Option.bind_eq_some_iff.mp hs
      obtain rfl := Option.some.inj hs
      obtain ⟨free, messages, hinv⟩ := h
      obtain ⟨-, rfl⟩ := hrun
      have hroom := hinv.room (show (c.pc o).held = some msg by rw [hpc]; rfl)
      have hentry : (if urgent then c.mq.linkFirst msg else c.mq.linkLast msg).entry = c.mq.entry := by
        cases urgent <;> rfl
      unfold MessageQueue.link at hlink
      dsimp only at hlink
      rw [hentry, if_pos hroom] at hlink
      obtain ⟨os', -, hlink⟩ := Option.bind_eq_some_iff.mp hlink
      cases hlink
      obtain ⟨messages', hinv'⟩ := hinv.link hpc
      exact ⟨⟨free, messages', hinv'⟩, urgent, buffer, msg, buffer.length, hpc, rfl⟩
    · rw [if_neg hrun] at hs
      cases hs
  | _ => simp [hpc] at hs

theorem Ok.recv {size : Nat} {timeout : Int} (h : c.Ok) (hs : c.recv o size timeout = some c') :
    c'.Ok ∧ c.Refines (.recv o size timeout) c' := by
  unfold MqSystem.recv at hs
  by_cases hcall : c.MayCall o timeout
  · rw [if_pos hcall] at hs
    obtain ⟨r, hr, rfl⟩ := Option.map_eq_some_iff.mp hs
    exact h.afterRecv (by rw [hcall.1]; rfl) (rt_mq_recv_ends hr)
  · rw [if_neg hcall] at hs
    cases hs

theorem Ok.recvResumed (h : c.Ok) (hs : c.recvResumed t = some c') :
    c'.Ok ∧ c.Refines (.recvResumed t) c' := by
  unfold MqSystem.recvResumed at hs
  cases hpc : c.pc (.thread t) with
  | receiving size timeout tick_delta =>
    have hold : (c.pc (.thread t)).held = none := by rw [hpc]; rfl
    simp only [hpc] at hs
    by_cases hrun : Kernel.Runs c.os t
    · rw [if_pos hrun] at hs
      obtain ⟨r, hr, rfl⟩ := Option.map_eq_some_iff.mp hs
      apply h.afterRecv hold
      unfold MessageQueue.recvResumed at hr
      by_cases herr : (c.os.threads t).error = RT_EOK
      · rw [if_neg (not_not.mpr herr)] at hr
        exact mqRecvLoop_ends hr
      · rw [if_pos herr] at hr
        obtain rfl := Option.some.inj hr
        exact .returned _ _
    · rw [if_neg hrun] at hs
      cases hs
  | _ => simp [hpc] at hs

theorem Ok.loadByte (h : c.Ok) (hs : c.loadByte o = some c') : c'.Ok ∧ c'.history = c.history := by
  unfold MqSystem.loadByte at hs
  cases hpc : c.pc o with
  | loading size msg buffer message =>
    simp only [hpc] at hs
    by_cases hrun : o.Runs c.os ∧ buffer.length < c.mq.copySize size
    · rw [if_pos hrun] at hs
      obtain rfl := Option.some.inj hs
      obtain ⟨free, messages, hinv⟩ := h
      have hcopies := hinv.copies o
      rw [hpc] at hcopies
      refine ⟨⟨free, messages, hinv.write (show (c.pc o).held = some msg by rw [hpc]; rfl) rfl hinv.lists
        (fun x hx => ⟨rfl, rfl⟩) rfl rfl ?_⟩, rfl⟩
      exact ⟨hcopies.1, hcopies.2.1, hcopies.2.2.snoc⟩
    · rw [if_neg hrun] at hs
      cases hs
  | _ => simp [hpc] at hs

theorem Ok.release (h : c.Ok) (hs : c.release o = some c') : c'.Ok ∧ c.Refines (.release o) c' := by
  unfold MqSystem.release at hs
  cases hpc : c.pc o with
  | loading size msg buffer message =>
    simp only [hpc] at hs
    by_cases hrun : o.Runs c.os ∧ buffer.length = c.mq.copySize size
    · rw [if_pos hrun] at hs
      obtain ⟨⟨os, mq, err⟩, hrel, hs⟩ := Option.bind_eq_some_iff.mp hs
      obtain rfl := Option.some.inj hs
      obtain ⟨os', -, hrel⟩ := Option.bind_eq_some_iff.mp hrel
      cases hrel
      obtain ⟨free, messages, hinv⟩ := h
      have hcopies := hinv.copies o
      rw [hpc] at hcopies
      have hok := hinv.history.receive hcopies.1 (hcopies.2.1.agree hcopies.2.2)
      have hlen : c.mq.copySize size = min size c.mq.msg_size := by
        unfold MessageQueue.copySize
        split_ifs <;> omega
      refine ⟨⟨msg :: free, messages, hinv.putFree (by rw [hpc]; rfl) hok rfl rfl⟩, ?_⟩
      exact ⟨size, msg, buffer, message, hpc, hrun.2.trans hlen, rfl⟩
    · rw [if_neg hrun] at hs
      cases hs
  | _ => simp [hpc] at hs

theorem Ok.control {cmd : Nat} (h : c.Ok) (hs : c.control cmd = some c') :
    c'.Ok ∧ c.Refines (.control cmd) c' := by
  obtain ⟨⟨os, mq, err⟩, hctl, hs⟩ := Option.bind_eq_some_iff.mp hs
  unfold MessageQueue.rt_mq_control at hctl
  by_cases hcmd : cmd = RT_IPC_CMD_RESET
  · rw [if_pos hcmd] at hctl
    obtain ⟨os1, -, hctl⟩ := Option.bind_eq_some_iff.mp hctl
    obtain ⟨os2, -, hctl⟩ := Option.bind_eq_some_iff.mp hctl
    obtain ⟨mq1, hrun, hctl⟩ := Option.bind_eq_some_iff.mp hctl
    cases hctl
    obtain rfl := Option.some.inj hs
    obtain ⟨free, messages, hinv⟩ := h
    obtain ⟨mq', hrun', hinv'⟩ := hinv.reset
    obtain rfl := Option.some.inj (hrun'.symm.trans hrun)
    exact ⟨⟨_, _, hinv'⟩, (if_pos hcmd).symm⟩
  · rw [if_neg hcmd] at hctl
    cases hctl
    obtain rfl := Option.some.inj hs
    exact ⟨h, (if_neg hcmd).symm⟩

theorem Ok.step {l : MqStep} (h : c.Ok) (hs : c.step l = some c') : c'.Ok ∧ c.Refines l c' := by
  cases l with
  | send o buffer timeout => exact h.send hs
  | sendResumed t => exact h.sendResumed hs
  | urgent o buffer => exact h.urgent hs
  | endLink o => exact h.endLink hs
  | storeByte o => exact h.storeByte hs
  | link o => exact h.link hs
  | recv o size timeout => exact h.recv hs
  | recvResumed t => exact h.recvResumed hs
  | loadByte o => exact h.loadByte hs
  | release o => exact h.release hs
  | control cmd => exact h.control hs
  | tick =>
    obtain rfl := Option.some.inj hs
    exact ⟨h, rfl⟩
  | schedule =>
    obtain ⟨os, -, rfl⟩ := Option.map_eq_some_iff.mp hs
    exact ⟨h, rfl⟩
  | other os =>
    obtain rfl := Option.some.inj hs
    exact ⟨h, rfl⟩

/-- The free list after the first nodes of the pool are put into it. -/
theorem setupLoop_lists {mq : MessageQueue} (h : MqLists mq [] []) (n : Nat) :
    MqLists ((List.range n).foldl MessageQueue.putFree mq) (List.range n).reverse [] ∧
      ((List.range n).foldl MessageQueue.putFree mq).max_msgs = mq.max_msgs := by
  induction n with
  | zero => exact ⟨h, rfl⟩
  | succ n ih =>
    obtain ⟨hlists, hmax⟩ := ih
    rw [List.range_succ, List.foldl_append, List.reverse_append]
    exact ⟨hlists.putFree (by simp), hmax⟩

theorem setup_ok {mq : MessageQueue} {msg_size max_msgs : Nat}
    (hmq : c.mq = mq.setup msg_size max_msgs) (hpc : ∀ o, c.pc o = .idle)
    (hhist : c.history = ⟨[], [], [], [], []⟩) : c.Ok := by
  let mq0 : MessageQueue :=
    { mq with
      msg_size := RT_ALIGN msg_size RT_ALIGN_SIZE % 2 ^ 16
      max_msgs := max_msgs % 2 ^ 16
      msg_queue_head := none
      msg_queue_tail := none
      msg_queue_free := none }
  have hempty : MqLists mq0 [] [] := ⟨rfl, rfl, rfl⟩
  obtain ⟨hlists, hmax⟩ := setupLoop_lists hempty (max_msgs % 2 ^ 16)
  have hmq : c.mq = { (List.range (max_msgs % 2 ^ 16)).foldl MessageQueue.putFree mq0 with
      entry := 0 } := hmq
  have hcmax : c.mq.max_msgs = max_msgs % 2 ^ 16 := by rw [hmq]; exact hmax
  have hheld : ∀ o, (c.pc o).held = none := fun o => by rw [hpc]; rfl
  refine ⟨(List.range (max_msgs % 2 ^ 16)).reverse, [], ?_, by rw [hmq]; rfl, ⟨?_, fun o x hx => ?_, fun x => ?_⟩, ?_,
    fun o => .of_none (hheld o), ?_, ?_⟩
  · rw [hmq]
    exact hlists.congr rfl rfl rfl rfl
  · rw [List.append_nil, List.nodup_reverse]
    exact List.nodup_range
  · rw [Function.comp_apply, hheld] at hx
    cases hx
  · simp [hheld, hcmax]
  · rw [hhist]
    exact .nil
  · have hlt := Nat.mod_lt max_msgs (show 0 < 2 ^ 16 by decide)
    unfold RT_MQ_ENTRY_MAX
    omega
  · rw [hhist]
    exact ⟨List.Perm.refl _, rfl, List.Pairwise.nil, List.Pairwise.nil, fun d hd => by cases hd⟩

theorem reachable_ok (hr : mqMachine.Reachable c) : c.Ok := by
  apply hr.invariant
  · rintro c ⟨⟨mq, ⟨msg_size, pool_size, hmq⟩ | ⟨msg_size, max_msgs, hmq⟩⟩, hpc, hhist⟩
    · exact setup_ok hmq hpc hhist
    · exact setup_ok hmq hpc hhist
  · exact fun c l c' _ h hs => (h.step hs).1

end MqSystem

theorem message_queue_conservation {c : MqSystem} (hr : mqMachine.Reachable c) :
    ∃ free messages, MqContract c free messages := by
  obtain ⟨free, messages, h⟩ := MqSystem.reachable_ok hr
  refine ⟨free, messages, h.lists.free_links, h.lists.links, ⟨h.lists.links.head_eq, h.lists.tail⟩,
    h.entry, h.owned.nodup, h.owned.alone, h.owned.all, h.queue, ⟨h.history.once, ?_⟩,
    h.history.order, h.history.urgent_first, h.history.received, ?_⟩
  · rw [h.history.ids]
    exact List.nodup_range
  · exact fun l c' hs => ((MqSystem.reachable_ok hr).step hs).2

/-- A message queue of two messages of eight bytes, used by nobody. -/
def emptyMessageQueue (os : Rtos) : MqSystem :=
  { os := os
    mq := MessageQueue.rt_mq_create
      { next := fun _ => none, payload := fun _ _ => 0, msg_size := 0, max_msgs := 0, entry := 0
        msg_queue_head := none, msg_queue_tail := none, msg_queue_free := none
        suspend_thread := 0, suspend_sender_thread := 1, flag := .fifo } 5 2
    tick := 0, pc := fun _ => .idle, history := ⟨[], [], [], [], []⟩ }

/-- While thread 1 copies its message, a handler sends an urgent one; thread 1 then receives the
urgent message, and a reset in the middle of its copy discards the other. -/
def sendAndReceive : List MqStep :=
  [.send (.thread 1) [1, 2] (-1), .endLink (.thread 1), .storeByte (.thread 1),
    .urgent (.handler 0) [3, 4, 5], .storeByte (.handler 0), .storeByte (.handler 0),
    .storeByte (.handler 0), .link (.handler 0), .storeByte (.thread 1), .link (.thread 1),
    .recv (.thread 1) 2 0, .loadByte (.thread 1), .control RT_IPC_CMD_RESET, .loadByte (.thread 1),
    .release (.thread 1)]

theorem message_queue_conservation_reset : ∃ os, startedThreads = some os ∧
    ∃ c, Machine.runs MqSystem.step (emptyMessageQueue os) sendAndReceive = some c ∧
      c.history.received = [⟨⟨0, true, [3, 4, 5]⟩, [3, 4]⟩] ∧
      c.history.discarded = [⟨1, false, [1, 2]⟩] ∧
      ∃ free messages, MqContract c free messages := by
  have hrun : ∃ os, startedThreads = some os ∧
      ∃ c, Machine.runs MqSystem.step (emptyMessageQueue os) sendAndReceive = some c ∧
        c.history.received = [⟨⟨0, true, [3, 4, 5]⟩, [3, 4]⟩] ∧
        c.history.discarded = [⟨1, false, [1, 2]⟩] := by
    decide +kernel
  obtain ⟨os, hos, c, hc, hreceived, hdiscarded⟩ := hrun
  have hfresh : (emptyMessageQueue os).Fresh :=
    ⟨⟨_, Or.inr ⟨5, 2, rfl⟩⟩, fun _ => rfl, rfl⟩
  refine ⟨os, hos, c, hc, hreceived, hdiscarded, message_queue_conservation ?_⟩
  exact (Machine.Reachable.start hfresh).runs (fun _ _ _ hs => hs) hc

end Ab32Vg1.Kernel
