import Mathlib.Data.Fintype.Card
import Mathlib.Data.Fintype.List
import Xv6.Dev.Ide

/-!
# `Dev.IdeQueue` — the disk queue over every interleaving

The links from `idequeue` on always spell out a list without repetitions: the requests that have been made and not
finished, oldest first. A buffer is in it as long as a process is in `iderw` with an unfinished request for it, and since
a busy buffer has one holder there is one such process. The command that the disk works on is that of the first buffer.
So when a process finds its buffer valid and clean, the interrupt was that of its own request.

## Contents
- **Links.** `Linked`, and what `append` does to it.
- **Holders.** `IdeSys.Held`: who may call `iderw` for which buffer.
- **The queue.** `IdeSys.Queue`, kept by every move.
- **Results.** `ide_queue` for every run, and `ide_valid_iff` about errors of the disk.
-/

namespace Xv6

open Machine Segment

/-! ## Links -/

/-- From `head` on, the links lead through `queue` and end. -/
def Linked (qnext : BufId → Option BufId) (head : Option BufId) (queue : List BufId) : Prop :=
  Seg (fun o : Option BufId => o.bind qnext) head (queue.map some) none

section Links

variable {qnext qnext' : BufId → Option BufId} {head : Option BufId} {queue l : List BufId} {b c x : BufId} {fuel : Nat}

theorem linked_cons : Linked qnext head (b :: queue) ↔ head = some b ∧ Linked qnext (qnext b) queue := Iff.rfl

theorem Linked.head_eq (h : Linked qnext head queue) : head = queue.head? := by
  cases queue with
  | nil => exact h
  | cons b queue => exact (linked_cons.1 h).1

/-- Only the links of the buffers in the queue matter. -/
theorem Linked.congr (h : Linked qnext head queue) (heq : ∀ b ∈ queue, qnext' b = qnext b) :
    Linked qnext' head queue := by
  refine Seg.congr h fun o ho => ?_
  obtain ⟨b, hb, rfl⟩ := List.mem_map.1 ho
  exact heq b hb

/-- The walk of `iderw` finds the last buffer. -/
theorem Linked.lastFrom (h : Linked qnext (some c) (l ++ [x])) (hf : l.length < fuel) :
    lastFrom qnext fuel c = some x := by
  induction l generalizing c fuel with
  | nil =>
    obtain ⟨fuel, rfl⟩ := Nat.exists_eq_succ_of_ne_zero (Nat.ne_zero_of_lt hf)
    obtain ⟨hc, hend⟩ := linked_cons.1 h
    cases hc
    rw [Xv6.lastFrom, hend.head_eq]
    rfl
  | cons d l ih =>
    obtain ⟨fuel, rfl⟩ := Nat.exists_eq_succ_of_ne_zero (Nat.ne_zero_of_lt hf)
    rw [List.cons_append] at h
    obtain ⟨hc, hrest⟩ := linked_cons.1 h
    cases hc
    have hnext := hrest.head_eq
    obtain ⟨e, he⟩ : ∃ e, (l ++ [x]).head? = some e := by
      cases l with
      | nil => exact ⟨x, rfl⟩
      | cons e l => exact ⟨e, rfl⟩
    rw [Xv6.lastFrom, hnext, he]
    rw [hnext, he] at hrest
    exact ih hrest (Nat.lt_of_succ_lt_succ hf)

/-- A link put in at the end. -/
theorem Linked.concat (h : Linked qnext head (l ++ [x])) (hnd : (l ++ [x]).Nodup) (hb : b ∉ l ++ [x])
    (hnone : qnext b = none) : Linked (Function.update qnext x (some b)) head (l ++ [x] ++ [b]) := by
  have hbx : b ≠ x := fun heq => hb (heq ▸ List.mem_append_right _ List.mem_cons_self)
  have hlast : qnext x = none := by
    rw [Linked, List.map_append] at h
    exact h.next_last
  rw [Linked, List.map_append, List.map_append, List.append_assoc]
  rw [Linked, List.map_append] at h
  refine h.insert ?_ ?_ ?_ ?_ fun o hx hob => ?_
  · simpa using hb
  · have hx : x ∉ l := fun hxl => (List.nodup_append.1 hnd).2.2 x hxl x List.mem_cons_self rfl
    simpa using hx
  · show Function.update qnext x (some b) b = qnext x
    rw [Function.update_of_ne hbx, hnone, hlast]
  · exact Function.update_self ..
  · cases o with
    | none => rfl
    | some c => exact Function.update_of_ne (fun hcx => hx (congrArg some hcx)) ..

end Links

variable {P D : Type} [DecidableEq P] {e : IdeEvent P D} {s s' : IdeSys P D} {queue : List BufId}

omit [DecidableEq P] in
/-- **`append`** puts the buffer at the end of the queue; the walk ends, since no queue has more than all the buffers. -/
theorem IdeSys.append_spec {b : BufId} (h : Linked s.qnext s.idequeue queue) (hnd : queue.Nodup) (hb : b ∉ queue) :
    ∃ qnext, s.append b = some ((queue ++ [b]).head?, qnext) ∧ Linked qnext (queue ++ [b]).head? (queue ++ [b]) := by
  have hcleared : Linked (Function.update s.qnext b none) s.idequeue queue :=
    h.congr fun c hc => Function.update_of_ne (ne_of_mem_of_not_mem hc hb) ..
  rcases List.eq_nil_or_concat queue with rfl | ⟨l, x, rfl⟩
  · refine ⟨Function.update s.qnext b none, ?_, linked_cons.2 ⟨rfl, Function.update_self ..⟩⟩
    rw [IdeSys.append, h.head_eq]
    rfl
  · rw [List.concat_eq_append] at *
    obtain ⟨c, hc⟩ : ∃ c, (l ++ [x]).head? = some c := by
      cases l with
      | nil => exact ⟨x, rfl⟩
      | cons c l => exact ⟨c, rfl⟩
    have hhead : s.idequeue = some c := h.head_eq.trans hc
    have hlen : l.length < NBUF := by
      have := hnd.length_le_card
      rw [List.length_append, List.length_singleton, Fintype.card_fin] at this
      omega
    rw [hhead] at hcleared
    have happ : (l ++ [x] ++ [b]).head? = some c := by rw [List.head?_append, hc]; rfl
    refine ⟨Function.update (Function.update s.qnext b none) x (some b), ?_, ?_⟩
    · rw [IdeSys.append, hhead, happ]
      dsimp only
      rw [hcleared.lastFrom hlen]
      rfl
    · rw [happ]
      exact hcleared.concat hnd hb (Function.update_self ..)

/-! ## Holders -/

/-- The buffer that a call in progress is about. -/
def IdeUse.buf : IdeUse → Option BufId
  | .none => Option.none
  | .got b | .call b _ | .req b _ _ => some b

@[simp, grind =] theorem buf_none : IdeUse.none.buf = none := rfl

@[simp, grind =] theorem buf_got {b : BufId} : (IdeUse.got b).buf = some b := rfl

@[simp, grind =] theorem buf_call {b : BufId} {k : RwKind} : (IdeUse.call b k).buf = some b := rfl

@[simp, grind =] theorem buf_req {b : BufId} {k : RwKind} {n : Nat} : (IdeUse.req b k n).buf = some b := rfl

/-- A request for `b` that the disk has not completed. -/
def IdeSys.Pending (s : IdeSys P D) (b : BufId) : RwKind → Prop
  | .read => s.valid b = false
  | .write => s.dirty b = true

omit [DecidableEq P] in
/-- The loop of `iderw` does not end before the disk has completed the request. -/
theorem IdeSys.Pending.not_done {b : BufId} {k : RwKind} (h : s.Pending b k) :
    ¬(s.valid b = true ∧ s.dirty b = false) := by
  rintro ⟨hv, hd⟩
  cases k with
  | read => exact absurd (h.symm.trans hv) Bool.false_ne_true
  | write => exact absurd (hd.symm.trans h) Bool.false_ne_true

/-- **A busy buffer has one holder**, and a process in a call about a buffer is its holder. -/
structure IdeSys.Held (s : IdeSys P D) : Prop where
  busy : ∀ p b, b ∈ s.held p → s.busy b = true
  oneOwner : ∀ p q b, b ∈ s.held p → b ∈ s.held q → p = q
  nodup : ∀ p, (s.held p).Nodup
  inCall : ∀ p b, (s.pc p).use.buf = some b → b ∈ s.held p
  called : ∀ p b k, (s.pc p).use = .call b k → s.Pending b k

/-- **The queue** is linked through `queue`: the unfinished requests in the order they were made, each with the process
    that waits for it, and the command for the first of them. -/
structure IdeSys.Queue (s : IdeSys P D) (queue : List BufId) : Prop where
  linked : Linked s.qnext s.idequeue queue
  nodup : queue.Nodup
  order : s.asked = s.finished ++ queue
  started : s.started = s.finished ++ queue.head?.toList
  cmd : s.cmd = queue.head?.map s.idestart
  number : ∀ p b k n, (s.pc p).use = .req b k n → s.asked[n]? = some b
  queued : ∀ b ∈ queue, ∃ p k n, (s.pc p).use = .req b k n ∧ s.finished.length ≤ n
  pending : ∀ p b k n, (s.pc p).use = .req b k n → s.finished.length ≤ n → s.Pending b k

namespace IdeSys.Held

attribute [local simp] IdeSys.ideintr IdeSys.brelse Function.update_apply

theorem busy_move (h : s.Held) (hm : IdeMove e s s') (p : P) (b : BufId) (hb : b ∈ s'.held p) : s'.busy b = true := by
  have hbusy := h.busy
  cases hm with
  | brelse q b' hq hb' =>
    have hone := h.oneOwner
    have hnd := h.nodup q
    simp at hb ⊢
    grind [List.Nodup.mem_erase_iff]
  | _ => simp at hb ⊢; grind

theorem oneOwner_move (h : s.Held) (hm : IdeMove e s s') (p q : P) (b : BufId) (hp : b ∈ s'.held p)
    (hq : b ∈ s'.held q) : p = q := by
  have hone := h.oneOwner
  have hbusy := h.busy
  cases hm <;> simp at hp hq ⊢ <;> grind [List.mem_of_mem_erase]

theorem nodup_move (h : s.Held) (hm : IdeMove e s s') (p : P) : (s'.held p).Nodup := by
  have hnd := h.nodup
  have hbusy := h.busy
  cases hm <;> simp <;> grind [List.Nodup.erase]

theorem inCall_move (h : s.Held) (hm : IdeMove e s s') (p : P) (b : BufId) (hb : (s'.pc p).use.buf = some b) :
    b ∈ s'.held p := by
  have hin := h.inCall
  cases hm with
  | quiet pc hpc =>
    dsimp only at hb
    rw [hpc p] at hb
    exact hin p b hb
  | intr ok c b' he hc hq =>
    simp only [ideintr, use_wakeup] at hb
    exact hin p b hb
  | brelse q b' hq hb' =>
    simp only [IdeSys.brelse, use_wakeup] at hb ⊢
    have hmem := hin p b hb
    by_cases hpq : p = q
    · -- the process that releases is in no call
      subst hpq
      rw [hq] at hb
      cases hb
    · rw [Function.update_of_ne hpq]
      exact hmem
  | _ => simp at hb ⊢; grind

omit [DecidableEq P] in
/-- A process that uses a buffer and does not wait for the disk: the buffer is not queued. -/
theorem notMem (h : s.Held) (hq : s.Queue queue) {p : P} {b : BufId} (hb : b ∈ s.held p)
    (hp : ∀ k n, (s.pc p).use ≠ .req b k n) : b ∉ queue := by
  intro hmem
  obtain ⟨q, k, n, huse, -⟩ := hq.queued b hmem
  obtain rfl := h.oneOwner p q b hb (h.inCall q b (by rw [huse, buf_req]))
  exact hp k n huse

omit [DecidableEq P] in
/-- A queued buffer is busy. -/
theorem queued_busy (h : s.Held) (hq : s.Queue queue) {b : BufId} (hb : b ∈ queue) : s.busy b = true := by
  obtain ⟨q, k, n, huse, -⟩ := hq.queued b hb
  exact h.busy q b (h.inCall q b (by rw [huse, buf_req]))

theorem called_move (h : s.Held) (hq : s.Queue queue) (hm : IdeMove e s s') (p : P) (b : BufId) (k : RwKind)
    (hp : (s'.pc p).use = .call b k) : s'.Pending b k := by
  have hcall := h.called
  have hin := h.inCall
  have hbusy (q : P) (b : BufId) (k : RwKind) (huse : (s.pc q).use = .call b k) : s.busy b = true :=
    h.busy q b (hin q b (by rw [huse, buf_call]))
  cases hm with
  | quiet pc hpc =>
    dsimp only at hp
    rw [hpc p] at hp
    exact hcall p b k hp
  | intr ok c b' he hc hhead =>
    simp only [ideintr, use_wakeup] at hp
    -- the buffer of the interrupt is queued, that of the call is not
    have hne : b ≠ b' := by
      rintro rfl
      refine h.notMem hq (hin p b (by rw [hp, buf_call])) (fun k n huse => ?_) ?_
      · rw [hp] at huse
        cases huse
      · have := hq.linked.head_eq
        rw [hhead] at this
        exact List.mem_of_mem_head? this.symm
    have hold := hcall p b k hp
    cases k <;> simpa [Pending, hne] using hold
  | brelse q b' hq' hb' =>
    simp only [IdeSys.brelse, use_wakeup] at hp
    exact hcall p b k hp
  | _ => cases k <;> simp [Pending] at hp ⊢ <;> grind [Pending]

theorem move (h : s.Held) (hq : s.Queue queue) (hm : IdeMove e s s') : s'.Held where
  busy := h.busy_move hm
  oneOwner := h.oneOwner_move hm
  nodup := h.nodup_move hm
  inCall := h.inCall_move hm
  called := h.called_move hq hm

end IdeSys.Held

/-! ## The queue -/

namespace IdeSys.Queue

omit [DecidableEq P] in
/-- The request with a number that is not finished is in the queue. -/
theorem mem_of_number (hq : s.Queue queue) {p : P} {b : BufId} {k : RwKind} {n : Nat}
    (hp : (s.pc p).use = .req b k n) (hn : s.finished.length ≤ n) : b ∈ queue := by
  have hnum := hq.number p b k n hp
  rw [hq.order, List.getElem?_append_right hn] at hnum
  exact List.mem_of_getElem? hnum

omit [DecidableEq P] in
/-- A move that leaves the queue, the unfinished requests and the queued buffers as they are. -/
theorem frame (hq : s.Queue queue) (hlinks : s'.qnext = s.qnext ∧ s'.idequeue = s.idequeue ∧ s'.cmd = s.cmd)
    (hhist : s'.asked = s.asked ∧ s'.started = s.started ∧ s'.finished = s.finished)
    (hbuf : ∀ b ∈ queue, s'.idestart b = s.idestart b ∧ s'.valid b = s.valid b ∧ s'.dirty b = s.dirty b)
    (hreq : ∀ p b k n, (s'.pc p).use = .req b k n → (s.pc p).use = .req b k n)
    (hkeep : ∀ p b k n, (s.pc p).use = .req b k n → s.finished.length ≤ n → (s'.pc p).use = .req b k n) :
    s'.Queue queue := by
  obtain ⟨hqnext, hhead, hcmd⟩ := hlinks
  obtain ⟨hasked, hstarted, hfinished⟩ := hhist
  refine ⟨?_, hq.nodup, ?_, ?_, ?_, fun p b k n hp => ?_, fun b hb => ?_, fun p b k n hp hn => ?_⟩
  · rw [hqnext, hhead]
    exact hq.linked
  · rw [hasked, hfinished, hq.order]
  · rw [hstarted, hfinished, hq.started]
  · rw [hcmd, hq.cmd]
    cases queue with
    | nil => rfl
    | cons b rest => rw [List.head?_cons, Option.map_some, Option.map_some, (hbuf b List.mem_cons_self).1]
  · rw [hasked]
    exact hq.number p b k n (hreq p b k n hp)
  · obtain ⟨p, k, n, hp, hn⟩ := hq.queued b hb
    exact ⟨p, k, n, hkeep p b k n hp hn, by rw [hfinished]; exact hn⟩
  · rw [hfinished] at hn
    have hp' := hreq p b k n hp
    obtain ⟨-, hvalid, hdirty⟩ := hbuf b (hq.mem_of_number hp' hn)
    have hold := hq.pending p b k n hp' hn
    cases k with
    | read => exact hvalid.trans hold
    | write => exact hdirty.trans hold

omit [DecidableEq P] in
/-- Moves of processes alone. -/
theorem frame_pc (hq : s.Queue queue) {pc : P → IdePc}
    (hreq : ∀ p b k n, (pc p).use = .req b k n → (s.pc p).use = .req b k n)
    (hkeep : ∀ p b k n, (s.pc p).use = .req b k n → s.finished.length ≤ n → (pc p).use = .req b k n) :
    { s with pc := pc }.Queue queue :=
  hq.frame ⟨rfl, rfl, rfl⟩ ⟨rfl, rfl, rfl⟩ (fun _ _ => ⟨rfl, rfl, rfl⟩) hreq hkeep

/-- A process that waits for no request starts or ends a call, and no queued buffer changes. -/
theorem frame_call (hq : s.Queue queue) {p : P} {pc : IdePc} (hpc : s'.pc = Function.update s.pc p pc)
    (hold : ∀ b k n, (s.pc p).use ≠ .req b k n) (hnew : ∀ b k n, pc.use ≠ .req b k n)
    (hlinks : s'.qnext = s.qnext ∧ s'.idequeue = s.idequeue ∧ s'.cmd = s.cmd)
    (hhist : s'.asked = s.asked ∧ s'.started = s.started ∧ s'.finished = s.finished)
    (hbuf : ∀ b ∈ queue, s'.idestart b = s.idestart b ∧ s'.valid b = s.valid b ∧ s'.dirty b = s.dirty b) :
    s'.Queue queue := by
  refine hq.frame hlinks hhist hbuf (fun q b k n hreq => ?_) fun q b k n hreq _ => ?_
  · rw [hpc, use_update] at hreq
    by_cases hqp : q = p
    · rw [if_pos hqp] at hreq
      exact absurd hreq (hnew b k n)
    · rwa [if_neg hqp] at hreq
  · have hqp : q ≠ p := fun hqp => hold b k n (hqp ▸ hreq)
    rw [hpc, use_update, if_neg hqp, hreq]

/-- `iderw` appends a request. -/
theorem iderw_move (hq : s.Queue queue) (h : s.Held) {p : P} {b : BufId} {k : RwKind} {head : Option BufId}
    {qnext : BufId → Option BufId} (hp : s.pc p = .calling b k) (happ : s.append b = some (head, qnext)) :
    { s with
      idequeue := head
      qnext := qnext
      cmd := if head = some b then some (s.idestart b) else s.cmd
      pc := Function.update s.pc p (.testing b k s.asked.length)
      asked := s.asked ++ [b]
      started := if head = some b then s.started ++ [b] else s.started }.Queue (queue ++ [b]) := by
  have huse : (s.pc p).use = .call b k := by rw [hp, use_calling]
  have hnot : b ∉ queue := by
    refine h.notMem hq (h.inCall p b (by rw [huse, buf_call])) fun k' n hreq => ?_
    rw [huse] at hreq
    cases hreq
  obtain ⟨qnext', happ', hlinked⟩ := append_spec hq.linked hq.nodup hnot
  rw [happ] at happ'
  cases happ'
  have hhead : (queue ++ [b]).head? = some b ↔ queue = [] := by
    cases queue with
    | nil => exact iff_of_true rfl rfl
    | cons c rest =>
      refine iff_of_false (fun hc => hnot ?_) (List.cons_ne_nil _ _)
      rw [← Option.some.inj hc]
      exact List.mem_cons_self
  refine ⟨hlinked, hq.nodup.append (List.nodup_singleton b) (by simpa using hnot), ?_, ?_, ?_, fun q c k' n hreq => ?_,
    fun c hc => ?_, fun q c k' n hreq hn => ?_⟩
  · dsimp only
    rw [hq.order, List.append_assoc]
  · dsimp only
    by_cases hnil : queue = []
    · subst hnil
      rw [if_pos (hhead.2 rfl), hq.started]
      simp
    · rw [if_neg (mt hhead.1 hnil), hq.started, List.head?_append_of_ne_nil _ hnil]
  · dsimp only
    by_cases hnil : queue = []
    · subst hnil
      rw [if_pos (hhead.2 rfl)]
      rfl
    · rw [if_neg (mt hhead.1 hnil), hq.cmd, List.head?_append_of_ne_nil _ hnil]
      rfl
  · dsimp only at hreq ⊢
    rw [use_update] at hreq
    by_cases hqp : q = p
    · rw [if_pos hqp, use_testing] at hreq
      cases hreq
      exact List.getElem?_concat_length
    · rw [if_neg hqp] at hreq
      have hnum := hq.number q c k' n hreq
      rw [List.getElem?_append_left (List.getElem?_eq_some_iff.1 hnum).1, hnum]
  · rcases List.mem_append.1 hc with hc | hc
    · obtain ⟨q, k', n, hreq, hn⟩ := hq.queued c hc
      have hqp : q ≠ p := by
        rintro rfl
        rw [huse] at hreq
        cases hreq
      exact ⟨q, k', n, by dsimp only; rw [use_update, if_neg hqp, hreq], hn⟩
    · rw [List.mem_singleton.1 hc]
      refine ⟨p, k, s.asked.length, by dsimp only; rw [use_update, if_pos rfl, use_testing], ?_⟩
      rw [hq.order, List.length_append]
      exact Nat.le_add_right _ _
  · dsimp only at hreq hn
    rw [use_update] at hreq
    by_cases hqp : q = p
    · rw [if_pos hqp, use_testing] at hreq
      cases hreq
      exact h.called p b k huse
    · rw [if_neg hqp] at hreq
      exact hq.pending q c k' n hreq hn

omit [DecidableEq P] in
/-- `ideintr` takes off the first request. -/
theorem ideintr_move (hq : s.Queue queue) (ok : Bool) (c : IdeCmd D) {b : BufId} (hhead : s.idequeue = some b) :
    ∃ rest, queue = b :: rest ∧ (s.ideintr ok c b).Queue rest := by
  obtain ⟨rest, rfl⟩ : ∃ rest, queue = b :: rest := by
    have hb := hq.linked.head_eq.symm
    rw [hhead] at hb
    exact ⟨queue.tail, List.eq_cons_of_mem_head? hb⟩
  obtain ⟨hbrest, hnd⟩ := List.nodup_cons.1 hq.nodup
  have hlinked : Linked s.qnext (s.qnext b) rest := (linked_cons.1 hq.linked).2
  have hlen : (s.finished ++ [b]).length = s.finished.length + 1 := List.length_append
  refine ⟨rest, rfl, hlinked, hnd, ?_, ?_, ?_, fun p b' k n hreq => ?_, fun b' hb' => ?_, fun p b' k n hreq hn => ?_⟩
  · show s.asked = s.finished ++ [b] ++ rest
    rw [hq.order, List.append_assoc, List.singleton_append]
  · show s.started ++ (s.qnext b).toList = s.finished ++ [b] ++ rest.head?.toList
    rw [hq.started, hlinked.head_eq]
    rfl
  · show (s.qnext b).map (s.ideintr ok c b).idestart = rest.head?.map (s.ideintr ok c b).idestart
    rw [hlinked.head_eq]
  · simp only [ideintr, use_wakeup] at hreq
    exact hq.number p b' k n hreq
  · obtain ⟨p, k, n, hreq, hn⟩ := hq.queued b' (List.mem_cons_of_mem _ hb')
    refine ⟨p, k, n, by simp only [ideintr, use_wakeup, hreq], ?_⟩
    show (s.finished ++ [b]).length ≤ n
    -- the first unfinished request is that for `b`
    have hne : n ≠ s.finished.length := by
      rintro rfl
      have hnum := hq.number p b' k _ hreq
      rw [hq.order, List.getElem?_append_right (Nat.le_refl _), Nat.sub_self] at hnum
      exact hbrest (Option.some.inj hnum ▸ hb')
    omega
  · simp only [ideintr, use_wakeup] at hreq
    change (s.finished ++ [b]).length ≤ n at hn
    have hold := hq.pending p b' k n hreq (by omega)
    have hne : b' ≠ b := by
      rintro rfl
      have hnum := hq.number p b' k n hreq
      rw [hq.order, List.getElem?_append_right (by omega)] at hnum
      obtain ⟨m, hm⟩ : ∃ m, n - s.finished.length = m + 1 := ⟨n - s.finished.length - 1, by omega⟩
      rw [hm, List.getElem?_cons_succ] at hnum
      exact hbrest (List.mem_of_getElem? hnum)
    cases k with
    | read => exact (Function.update_of_ne hne ..).trans hold
    | write => exact (Function.update_of_ne hne ..).trans hold

/-- **Every move keeps the queue.** -/
theorem move (hq : s.Queue queue) (h : s.Held) (hm : IdeMove e s s') : ∃ queue', s'.Queue queue' := by
  cases hm with
  | quiet pc hpc =>
    refine ⟨queue, hq.frame_pc (fun p b k n hp => ?_) fun p b k n hp _ => ?_⟩
    · rw [← hpc p, hp]
    · rw [hpc p, hp]
  | ret p hp =>
    refine ⟨queue, hq.frame_pc (fun q b k n hreq => ?_) fun q b k n hreq hn => ?_⟩
    · rw [use_update] at hreq
      by_cases hqp : q = p
      · rw [if_pos hqp] at hreq
        cases hreq
      · rwa [if_neg hqp] at hreq
    · -- a process that returns has no unfinished request
      have hqp : q ≠ p := by
        rintro rfl
        exact (hq.pending q b k n hreq hn).not_done (hp b k n hreq)
      rw [use_update, if_neg hqp, hreq]
  | iderw p b k head qnext hp happ => exact ⟨_, hq.iderw_move h hp happ⟩
  | intr ok c b he hc hhead =>
    obtain ⟨rest, -, hrest⟩ := hq.ideintr_move ok c hhead
    exact ⟨rest, hrest⟩
  | hit p b hp hb =>
    exact ⟨queue, hq.frame_call rfl (by simp [hp]) (by simp) ⟨rfl, rfl, rfl⟩ ⟨rfl, rfl, rfl⟩ fun _ _ => ⟨rfl, rfl, rfl⟩⟩
  | recycle p dev sector b hp hb =>
    refine ⟨queue, hq.frame_call rfl (by simp [hp]) (by simp) ⟨rfl, rfl, rfl⟩ ⟨rfl, rfl, rfl⟩ fun c hc => ?_⟩
    have hne : c ≠ b := by
      rintro rfl
      exact absurd (hb.symm.trans (h.queued_busy hq hc)) Bool.false_ne_true
    simp [idestart, Function.update_of_ne hne]
  | miss p b hp hv =>
    exact ⟨queue, hq.frame_call rfl (by simp [hp]) (by simp) ⟨rfl, rfl, rfl⟩ ⟨rfl, rfl, rfl⟩ fun _ _ => ⟨rfl, rfl, rfl⟩⟩
  | bwrite p b hp hb =>
    refine ⟨queue, hq.frame_call rfl (by simp [hp]) (by simp) ⟨rfl, rfl, rfl⟩ ⟨rfl, rfl, rfl⟩ fun c hc => ?_⟩
    have hne : c ≠ b := ne_of_mem_of_not_mem hc (h.notMem hq hb (by simp [hp]))
    simp [idestart, Function.update_of_ne hne]
  | modify p b d hp hb =>
    refine ⟨queue, hq.frame ⟨rfl, rfl, rfl⟩ ⟨rfl, rfl, rfl⟩ (fun c hc => ?_) (fun _ _ _ _ hreq => hreq)
      fun _ _ _ _ hreq _ => hreq⟩
    have hne : c ≠ b := ne_of_mem_of_not_mem hc (h.notMem hq hb (by simp [hp]))
    simp [idestart, Function.update_of_ne hne]
  | brelse p b hp hb =>
    refine ⟨queue, hq.frame ⟨rfl, rfl, rfl⟩ ⟨rfl, rfl, rfl⟩ (fun c hc => ⟨rfl, rfl, rfl⟩) (fun q c k n hreq => ?_)
      fun q c k n hreq _ => ?_⟩
    · simpa only [IdeSys.brelse, use_wakeup] using hreq
    · simpa only [IdeSys.brelse, use_wakeup] using hreq

end IdeSys.Queue

/-! ## Results -/

omit [DecidableEq P] in
theorem IdeSys.held_init (disk₀ : DiskAddr → D) (d₀ : D) : (IdeSys.init disk₀ d₀ : IdeSys P D).Held where
  busy := fun p b hb => absurd hb List.not_mem_nil
  oneOwner := fun p q b hb => absurd hb List.not_mem_nil
  nodup := fun p => List.nodup_nil
  inCall := fun p b hb => by cases hb
  called := fun p b k hp => by cases hp

omit [DecidableEq P] in
theorem IdeSys.queue_init (disk₀ : DiskAddr → D) (d₀ : D) : (IdeSys.init disk₀ d₀ : IdeSys P D).Queue [] where
  linked := rfl
  nodup := List.nodup_nil
  order := rfl
  started := rfl
  cmd := rfl
  number := fun p b k n hp => by cases hp
  queued := fun b hb => absurd hb List.not_mem_nil
  pending := fun p b k n hp => by cases hp

variable {havedisk1 : Bool} {disk₀ : DiskAddr → D} {d₀ : D} {es : List (IdeEvent P D)}

theorem ide_run (hrun : run (ideStep havedisk1) (IdeSys.init disk₀ d₀) es = some s) : s.Held ∧ ∃ queue, s.Queue queue := by
  refine run_invariant (I := fun s => s.Held ∧ ∃ queue, s.Queue queue) ⟨IdeSys.held_init .., [], IdeSys.queue_init ..⟩
    (fun t e u ht hstep => ?_) hrun
  obtain ⟨h, queue, hq⟩ := ht
  have hm := ideStep_move hstep
  exact ⟨h.move hq hm, hq.move h hm⟩

/-- **The disk queue**, after any run of any processes and any interrupts: it is the list of the unfinished requests in the
    order they were made, a buffer being in it as long as a process is in `iderw` with an unfinished request for it; the
    command is that of its head; and the requests are started in that order, each once. A process whose loop in `iderw`
    ends has had the interrupt of its own request, and `iderw` can always append a request. -/
theorem ide_queue (hrun : run (ideStep havedisk1) (IdeSys.init disk₀ d₀) es = some s) :
    ∃ queue, Linked s.qnext s.idequeue queue ∧ queue.Nodup ∧ s.asked = s.finished ++ queue ∧
      (∀ b, b ∈ queue ↔ ∃ p k n, (s.pc p).use = .req b k n ∧ s.finished.length ≤ n) ∧
      s.cmd = queue.head?.map s.idestart ∧ s.started = s.finished ++ queue.head?.toList ∧
      (∀ p b k n, (s.pc p).use = .req b k n → s.asked[n]? = some b) ∧
      (∀ p b k n s', s.pc p = .testing b k n → ideStep havedisk1 s (.wait p) = some s' → s'.pc p = .idle →
        s.finished[n]? = some b) ∧
      ∀ p b k, s.pc p = .calling b k → s.dev b = 0 ∨ havedisk1 = true →
        ∃ s', ideStep havedisk1 s (.iderw p) = some s' := by
  obtain ⟨h, queue, hq⟩ := ide_run hrun
  refine ⟨queue, hq.linked, hq.nodup, hq.order, fun b => ⟨hq.queued b, fun ⟨p, k, n, hp, hn⟩ => hq.mem_of_number hp hn⟩,
    hq.cmd, hq.started, hq.number, fun p b k n s' hp hstep hidle => ?_, fun p b k hp hdev => ?_⟩
  · have huse : (s.pc p).use = .req b k n := by rw [hp, use_testing]
    rw [ideStep, hp] at hstep
    dsimp only at hstep
    by_cases hdone : s.valid b = true ∧ s.dirty b = false
    · have hlt : n < s.finished.length := by
        by_contra hle
        exact (hq.pending p b k n huse (Nat.le_of_not_lt hle)).not_done hdone
      have hnum := hq.number p b k n huse
      rwa [hq.order, List.getElem?_append_left hlt] at hnum
    · rw [if_neg hdone] at hstep
      cases hstep
      dsimp only at hidle
      rw [Function.update_self] at hidle
      cases hidle
  · have huse : (s.pc p).use = .call b k := by rw [hp, use_calling]
    have hheld := h.inCall p b (by rw [huse, buf_call])
    have hnot : b ∉ queue := h.notMem hq hheld fun k' n hreq => by
      rw [huse] at hreq
      cases hreq
    have hflags : ¬(s.valid b = true ∧ s.dirty b = false) := (h.called p b k huse).not_done
    obtain ⟨qnext, happ, -⟩ := IdeSys.append_spec hq.linked hq.nodup hnot
    have hbusy : ¬s.busy b = false := fun hno => absurd (hno.symm.trans (h.busy p b hheld)) Bool.false_ne_true
    have hdisk : ¬(s.dev b ≠ 0 ∧ havedisk1 = false) := by
      rintro ⟨hne, hno⟩
      rcases hdev with h0 | h1
      · exact hne h0
      · exact absurd (hno.symm.trans h1) Bool.false_ne_true
    rw [ideStep, hp]
    dsimp only
    rw [IdeSys.iderw, if_neg hbusy, if_neg hflags, if_neg hdisk, happ]
    exact ⟨_, rfl⟩

/-- Two processes read two sectors; the interrupt is for the request that was made first. -/
theorem ide_queue_two : ∃ s : IdeSys (Fin 2) Nat, run (ideStep false) (IdeSys.init (fun _ => 7) 0)
      [.bread 0 0 1, .bget 0, .check 0, .iderw 0, .wait 0, .bread 1 0 2, .bget 1, .check 1, .iderw 1, .intr false] = some s ∧
    ∃ queue, Linked s.qnext s.idequeue queue ∧ s.asked = s.finished ++ queue ∧ queue = [1] := by
  have hrun : (run (ideStep false) (IdeSys.init (fun _ => 7) 0 : IdeSys (Fin 2) Nat)
      [.bread 0 0 1, .bget 0, .check 0, .iderw 0, .wait 0, .bread 1 0 2, .bget 1, .check 1, .iderw 1, .intr false]).map
      (fun s => (s.asked, s.finished)) = some ([0, 1], [0]) := by decide +kernel
  obtain ⟨s, hs, hhist⟩ := Option.map_eq_some_iff.1 hrun
  obtain ⟨queue, hlinked, -, horder, -⟩ := ide_queue hs
  obtain ⟨hasked, hfinished⟩ := Prod.mk.inj hhist
  refine ⟨s, hs, queue, hlinked, horder, ?_⟩
  rw [hasked, hfinished] at horder
  exact (List.cons.inj horder).2.symm

/-! ### Errors -/

/-- What the disk has in the sector of `b`: where `idestart` sends the disk for it. -/
def IdeSys.onDisk (s : IdeSys P D) (b : BufId) : D := s.disk (BufSys.diskAddr (s.dev b) (s.sector b))

/-- **`B_VALID` is set only on a buffer that holds its sector**: one that becomes valid in this step, or whose request an
    interrupt finishes. -/
def ValidOk (s s' : IdeSys P D) : Prop :=
  ∀ b, s.valid b = false ∧ s'.valid b = true ∨ s'.finished = s.finished ++ [b] → s'.data b = s'.onDisk b

/-- The disk reports no error, or the buffer held the bytes of the sector already. -/
def IdeGood (s : IdeSys P D) : IdeEvent P D → Prop
  | .intr ok => ok = true ∨ ∀ b, s.idequeue = some b → s.data b = s.onDisk b
  | _ => True

omit [DecidableEq P] in
/-- The buffer of an interrupt, and what the disk has for it. -/
theorem IdeSys.Queue.ideintr_data (hq : s.Queue queue) {ok : Bool} {c : IdeCmd D} {b : BufId} (hc : s.cmd = some c)
    (hhead : s.idequeue = some b) :
    (s.ideintr ok c b).data b = (s.ideintr ok c b).onDisk b ↔ ok = true ∨ s.data b = s.onDisk b := by
  have hcmd : c = s.idestart b := by
    have := hq.cmd
    rw [hc, ← hq.linked.head_eq, hhead] at this
    exact Option.some.inj this
  subst hcmd
  cases ok with
  | true =>
    refine iff_of_true ?_ (.inl rfl)
    cases hd : s.dirty b <;> simp [ideintr, onDisk, idestart, hd]
  | false =>
    have hsame : (s.ideintr false (s.idestart b) b).data b = s.data b ∧
        (s.ideintr false (s.idestart b) b).onDisk b = s.onDisk b := by
      cases hd : s.dirty b <;> simp [ideintr, onDisk, idestart, hd]
    rw [hsame.1, hsame.2]
    exact ⟨.inr, fun h => h.resolve_left Bool.false_ne_true⟩

omit [DecidableEq P] in
/-- A step that sets `B_VALID` nowhere. -/
theorem validOk_of_same (hvalid : ∀ b, s'.valid b = true → s.valid b = true) (hfin : s'.finished = s.finished) :
    ValidOk s s' := by
  rintro b (⟨hold, hnew⟩ | happ)
  · exact absurd (hold.symm.trans (hvalid b hnew)) Bool.false_ne_true
  · rw [hfin] at happ
    exact absurd (List.self_eq_append_right.1 happ) (List.cons_ne_nil _ _)

theorem validOk_of_move (hm : IdeMove e s s') (he : ∀ ok, e ≠ .intr ok) : ValidOk s s' := by
  cases hm with
  | intr ok c b he' hc hq => exact absurd he' (he ok)
  | recycle p dev sector b hp hb =>
    refine validOk_of_same (fun b' hb' => ?_) rfl
    dsimp only at hb'
    by_cases hbb : b' = b
    · rw [hbb, Function.update_self] at hb'
      cases hb'
    · rwa [Function.update_of_ne hbb] at hb'
  | _ => exact validOk_of_same (fun _ hb => hb) rfl

/-- **Where an error of the disk becomes data**: after every run, a step sets `B_VALID` rightly if and only if it is not the
    completion of a command with an error, for a buffer with other bytes. -/
theorem ide_valid_iff (hrun : run (ideStep havedisk1) (IdeSys.init disk₀ d₀) es = some s)
    (hstep : ideStep havedisk1 s e = some s') : ValidOk s s' ↔ IdeGood s e := by
  obtain ⟨-, queue, hq⟩ := ide_run hrun
  cases e with
  | intr ok =>
    rw [ideStep] at hstep
    cases hc : s.cmd with
    | none => rw [hc] at hstep; cases hstep
    | some c =>
      cases hhead : s.idequeue with
      | none => rw [hc, hhead] at hstep; cases hstep
      | some b =>
        rw [hc, hhead] at hstep
        cases hstep
        rw [IdeGood, hhead]
        refine ⟨fun hok => ?_, fun hgood b' hb' => ?_⟩
        · exact ((hq.ideintr_data hc hhead).1 (hok b (.inr rfl))).imp_right fun hb b' hb' => Option.some.inj hb' ▸ hb
        · have hbb : b' = b := by
            rcases hb' with ⟨hold, hnew⟩ | happ
            · by_contra hne
              have hnew : s.valid b' = true := (Function.update_of_ne hne ..).symm.trans hnew
              exact absurd (hold.symm.trans hnew) Bool.false_ne_true
            · exact (List.cons.inj (List.append_cancel_left happ)).1.symm
          rw [hbb]
          exact (hq.ideintr_data hc hhead).2 (hgood.imp_right fun hall => hall b rfl)
  | _ => exact iff_of_true (validOk_of_move (ideStep_move hstep) (by simp)) trivial

/-- A read that the disk completes without an error. -/
theorem ide_valid_iff_read : ∃ s s' : IdeSys (Fin 1) Nat,
    run (ideStep false) (IdeSys.init (fun _ => 7) 0) [.bread 0 0 1, .bget 0, .check 0, .iderw 0] = some s ∧
      ideStep false s (.intr true) = some s' ∧ ValidOk s s' := by
  have hsome : (run (ideStep false) (IdeSys.init (fun _ => 7) 0 : IdeSys (Fin 1) Nat)
      ([.bread 0 0 1, .bget 0, .check 0, .iderw 0] ++ [.intr true])).isSome = true := by decide +kernel
  obtain ⟨s', hs'⟩ := Option.isSome_iff_exists.1 hsome
  obtain ⟨s, hs, hstep⟩ := run_concat.1 hs'
  exact ⟨s, s', hs, hstep, (ide_valid_iff hs hstep).2 (.inl rfl)⟩

/-- A read that fails: the buffer becomes valid with the bytes it had before, and `bread` returns it. -/
theorem ide_error_valid : ∃ s s' s'' : IdeSys (Fin 1) Nat,
    run (ideStep false) (IdeSys.init (fun _ => 7) 0) [.bread 0 0 1, .bget 0, .check 0, .iderw 0] = some s ∧
      ideStep false s (.intr false) = some s' ∧ ¬ValidOk s s' ∧
      ideStep false s' (.wait 0) = some s'' ∧ s''.pc 0 = .idle ∧ s''.data 0 = 0 ∧ s''.onDisk 0 = 7 := by
  have hend : (run (ideStep false) (IdeSys.init (fun _ => 7) 0 : IdeSys (Fin 1) Nat)
      ([.bread 0 0 1, .bget 0, .check 0, .iderw 0] ++ [.intr false] ++ [.wait 0])).map
      (fun s => (s.pc 0, s.data 0, s.onDisk 0)) = some (.idle, 0, 7) := by decide +kernel
  obtain ⟨s'', hs'', hfields⟩ := Option.map_eq_some_iff.1 hend
  obtain ⟨hpc, hfields⟩ := Prod.mk.inj hfields
  obtain ⟨hdata, hdisk⟩ := Prod.mk.inj hfields
  obtain ⟨s', hs', hwait⟩ := run_concat.1 hs''
  obtain ⟨s, hs, hintr⟩ := run_concat.1 hs'
  have hbefore : (run (ideStep false) (IdeSys.init (fun _ => 7) 0 : IdeSys (Fin 1) Nat)
      [.bread 0 0 1, .bget 0, .check 0, .iderw 0]).map (fun s => s.valid 0) = some false := by decide +kernel
  have hafter : (run (ideStep false) (IdeSys.init (fun _ => 7) 0 : IdeSys (Fin 1) Nat)
      ([.bread 0 0 1, .bget 0, .check 0, .iderw 0] ++ [.intr false])).map
      (fun s => (s.valid 0, s.data 0, s.onDisk 0)) = some (true, 0, 7) := by decide +kernel
  rw [hs] at hbefore
  rw [hs'] at hafter
  obtain ⟨hvalid, hsame⟩ := Prod.mk.inj (Option.some.inj hafter)
  obtain ⟨hdata', hdisk'⟩ := Prod.mk.inj hsame
  refine ⟨s, s', s'', hs, hintr, fun hok => ?_, hwait, hpc, hdata, hdisk⟩
  have heq := hok 0 (.inl ⟨Option.some.inj hbefore, hvalid⟩)
  rw [hdata', hdisk'] at heq
  cases heq

end Xv6
