import AppleMCX.Netif.CompletionPath
import Mathlib.Data.Prod.Lex

/-! # No completion is left behind

However packets, completions and events have come so far: once no more come, the steps from the device to
the polls come to rest, in whatever order they are taken, and at rest every completion is handled and both queues
are armed.
-/
namespace AppleMCX.CompletionPath
open Hw Interaction EventQueue

variable {c : Setup} {s t : System}

/-! ## The measure -/

/-- The answer that an armed queue with new entries is about to give. -/
def unsent (u : ArmUnit 2 24) (consumed produced : ℕ) : ℕ := if u.armed ≠ none ∧ consumed < produced then 1 else 0

def System.unsent (s : System) : ℕ :=
  CompletionPath.unsent s.txUnit s.tx.consumed s.tx.produced + CompletionPath.unsent s.rxUnit s.rx.handled s.rx.queue.produced

def backlog (eq : EventQueue.State) : ℕ := eq.produced.length - eq.consumed

/-- How far the next entry of the event queue is from being handled with. -/
def phase (interrupt : Bool) (eq : EventQueue.State) : ℕ :=
  match eq.pc with
  | .doorbell _ => 9
  | .scan (_ + 1) => 8
  | .arm => if backlog eq = 0 then 1 else 7
  | .idle => if interrupt then 5 else if backlog eq = 0 then 0 else 6
  | .scan 0 => 4
  | .dispatch _ => 3
  | .callbacks _ _ _ => 2
  | .advance _ => 1

def callbacksLeft (eq : EventQueue.State) : ℕ :=
  match eq.pc with
  | .callbacks _ left _ => left
  | _ => 0

def txRank (tx : TxQueue.State) : ℕ := if tx.polling then tx.produced - tx.consumed + 1 else 0

def rank (s : System) : ℕ ×ₗ ℕ ×ₗ ℕ ×ₗ ℕ ×ₗ ℕ :=
  toLex (s.unsent,toLex (backlog s.eq,toLex (phase s.interrupt s.eq,toLex (callbacksLeft s.eq,txRank s.tx + rxRank s.rx))))

theorem rank_lt : rank t < rank s ↔ t.unsent < s.unsent ∨ t.unsent = s.unsent ∧ (backlog t.eq < backlog s.eq ∨
    backlog t.eq = backlog s.eq ∧ (phase t.interrupt t.eq < phase s.interrupt s.eq ∨
    phase t.interrupt t.eq = phase s.interrupt s.eq ∧ (callbacksLeft t.eq < callbacksLeft s.eq ∨
    callbacksLeft t.eq = callbacksLeft s.eq ∧ txRank t.tx + rxRank t.rx < txRank s.tx + rxRank s.rx))) := by
  unfold rank
  simp only [Prod.Lex.toLex_lt_toLex]

/-! ## The handler -/

/-- The handler gets nearer to the end of the current entry. -/
theorem handle_lowers {cfg : Config} {eq : EventQueue.State} (h : EventQueue.Inv cfg eq) {interrupt : Bool} (targets : ℕ)
    (hidle : eq.pc = .idle → interrupt = true) : backlog (eq.handle cfg targets) < backlog eq ∨
      backlog (eq.handle cfg targets) = backlog eq ∧ (phase false (eq.handle cfg targets) < phase interrupt eq ∨
      phase false (eq.handle cfg targets) = phase interrupt eq ∧ callbacksLeft (eq.handle cfg targets) < callbacksLeft eq) := by
  have hconsumed := h.consumed
  cases hpc : eq.pc with
  | idle =>
    have hint := hidle hpc
    simp only [EventQueue.State.handle, phase, hpc, hint, if_true]
    exact Or.inr ⟨rfl,Or.inl (by decide)⟩
  | scan i =>
    have hnew := EventQueue.isNewEqe_produced h
    by_cases hfound : i < cfg.size ∧ eq.isNewEqe cfg = true
    · simp only [EventQueue.State.handle, phase, hpc, if_pos hfound]
      refine Or.inr ⟨rfl,Or.inl ?_⟩
      cases i with
      | zero =>
        show 3 < 4
        decide
      | succ i =>
        show 3 < 8
        decide
    · simp only [EventQueue.State.handle, phase, hpc, if_neg hfound]
      refine Or.inr ⟨rfl,Or.inl ?_⟩
      cases i with
      | zero =>
        have hsize : 0 < cfg.size := Nat.two_pow_pos cfg.logSize
        have hnone : ¬ eq.consumed < eq.produced.length := fun hlt => hfound ⟨hsize,hnew.mpr hlt⟩
        have hzero : backlog { eq with pc := .arm } = 0 := Nat.sub_eq_zero_of_le (Nat.le_of_not_lt hnone)
        rw [if_pos hzero]
        show 1 < 4
        decide
      | succ i =>
        dsimp only
        split <;> decide
  | dispatch i =>
    simp only [EventQueue.State.handle, phase, hpc]
    exact Or.inr ⟨rfl,Or.inl (by decide)⟩
  | callbacks i left type =>
    cases left with
    | zero =>
      simp only [EventQueue.State.handle, phase, hpc]
      exact Or.inr ⟨rfl,Or.inl (by decide)⟩
    | succ left =>
      simp only [EventQueue.State.handle, phase, callbacksLeft, hpc]
      exact Or.inr ⟨rfl,Or.inr ⟨trivial,Nat.lt_succ_self left⟩⟩
  | advance i =>
    have hlt := h.found (by rw [hpc]; rfl)
    simp only [EventQueue.State.handle, hpc]
    refine Or.inl ?_
    unfold backlog
    dsimp only
    omega
  | doorbell i =>
    simp only [EventQueue.State.handle, hpc]
    split
    · simp only [phase, hpc]
      exact Or.inr ⟨rfl,Or.inl (by decide)⟩
    · simp only [phase, hpc]
      exact Or.inr ⟨rfl,Or.inl (by decide)⟩
  | arm =>
    simp only [EventQueue.State.handle, phase, hpc]
    refine Or.inr ⟨rfl,Or.inl ?_⟩
    have hsame : backlog { eq.updateCi cfg true with pc := .idle } = backlog eq := rfl
    rw [hsame]
    by_cases hzero : backlog eq = 0
    · rw [if_pos hzero, if_pos hzero]
      decide
    · rw [if_neg hzero, if_neg hzero]
      decide

/-- What the path leaves as it is. -/
structure Still (s t : System) : Prop where
  tx : t.tx.produced = s.tx.produced
  rx : t.rx.queue.produced = s.rx.queue.produced
  registered : t.fNotifierRegistered = s.fNotifierRegistered

theorem handleEvent_still (hpoll : ¬ s.polling) (type : BitVec 8) (eqe : Eqe) :
    (s.handleEvent c type eqe).unsent = s.unsent ∧ Still s (s.handleEvent c type eqe) := by
  unfold System.handleEvent
  split_ifs
  · exact ⟨rfl,rfl,rfl,rfl⟩
  · simp only [TxQueue.State.step]
    split <;> exact ⟨rfl,rfl,rfl,rfl⟩
  · have hidle : s.rx.queue.pc = .idle := by
      by_contra hp
      exact hpoll (Or.inr hp)
    have hstart : s.rx.poll false = { s.rx with
        queue := { s.rx.queue with fRxArmSn := s.rx.queue.fRxArmSn + 1, pc := .scan } } := by
      simp only [RxQueue.Run.poll, RxQueue.State.poll, hidle]
    rw [hstart]
    exact ⟨rfl,rfl,rfl,rfl⟩
  · exact ⟨rfl,rfl,rfl,rfl⟩

theorem handle_rank {before after : ℕ} (h : Inv c s) (hs : s.handle c before after = some t) :
    rank t < rank s ∧ Still s t := by
  have hquiet : s.eq.pc ≠ .idle → s.interrupt = false := fun hpc => ((Waits.of_ne hpc).mp h.waits).2
  have hlowers : ∀ targets, t.eq = s.eq.handle c.eq targets → t.interrupt = false →
    (s.eq.pc = .idle → s.interrupt = true) →
      t.unsent = s.unsent → rank t < rank s := by
    intro targets heq hint hidle hunsent
    rw [rank_lt, heq, hint]
    refine Or.inr ⟨hunsent,?_⟩
    rcases handle_lowers h.eq targets hidle with hlt | ⟨hsame,hlt | ⟨hphase,hlt⟩⟩
    · exact Or.inl hlt
    · exact Or.inr ⟨hsame,Or.inl hlt⟩
    · exact Or.inr ⟨hsame,Or.inr ⟨hphase,Or.inl hlt⟩⟩
  obtain ⟨hpoll,⟨hpc,hint,rfl⟩ | ⟨⟨i,hpc⟩,rfl⟩ | ⟨i,left,type,hpc,
    hmine,rfl⟩ | ⟨hpc,rfl⟩ | ⟨hq,rfl⟩⟩ := handle_cases hs
  · exact ⟨hlowers 0 rfl rfl (fun _ => hint) rfl,rfl,rfl,rfl⟩
  · have hne : s.eq.pc ≠ .idle := fun he => by rw [hpc] at he; cases he
    exact ⟨hlowers _ rfl (hquiet hne) (fun he => absurd he hne) rfl,rfl,rfl,rfl⟩
  · have hne : s.eq.pc ≠ .idle := fun he => by rw [hpc] at he; cases he
    obtain ⟨hunsent,hstill⟩ := handleEvent_still (c := c) hpoll type (s.eq.eqe c.eq)
    have hint : (s.handleEvent c type (s.eq.eqe c.eq)).interrupt = s.interrupt := by
      unfold System.handleEvent
      split_ifs <;> rfl
    exact ⟨hlowers 0 rfl (hint.trans (hquiet hne)) (fun he => absurd he hne) hunsent,hstill.tx,hstill.rx,hstill.registered⟩
  · have hne : s.eq.pc ≠ .idle := fun he => by rw [hpc] at he; cases he
    exact ⟨hlowers 0 rfl (hquiet hne) (fun he => absurd he hne) rfl,rfl,rfl,rfl⟩
  · exact ⟨hlowers 0 rfl (hquiet hq.ne.1) (fun he => absurd he hq.ne.1) rfl,rfl,rfl,rfl⟩

/-! ## The polls and the device -/

/-- A queue that is polled is not armed, and after the poll nothing is left. -/
theorem unsent_held {u : ArmUnit 2 24} {sn : BitVec 2} {k pending consumed produced : ℕ} {n : Notice}
    (h : Line u sn k pending true n) : unsent u consumed produced = 0 := by
  refine if_neg (fun hu => hu.1 ?_)
  exact h.held.unit.1

theorem unsent_equal (u : ArmUnit 2 24) {consumed produced : ℕ} (h : consumed = produced) :
    unsent u consumed produced = 0 :=
  if_neg (fun hu => Nat.lt_irrefl _ (h ▸ hu.2))

theorem pollTx_rank (h : Inv c s) (hs : s.pollTx = some t) : rank t < rank s ∧ Still s t := by
  unfold System.pollTx at hs
  split at hs
  · rename_i hpoll
    cases hs
    obtain ⟨n,hn⟩ := h.txLine
    rw [hpoll, Bool.true_or] at hn
    have hbefore : unsent s.txUnit s.tx.consumed s.tx.produced = 0 := unsent_held hn
    rw [rank_lt]
    unfold System.unsent txRank
    dsimp only
    rw [hbefore, if_pos hpoll]
    obtain ⟨hlt,hconsumed,hproduced,hstill,-,-⟩ | ⟨hall,hlast⟩ := tx_pollCqe h.tx h.registered
    · rw [hstill, hpoll, if_pos rfl, if_pos rfl, unsent_held hn, hconsumed, hproduced]
      refine ⟨Or.inr ⟨rfl,Or.inr ⟨rfl,Or.inr ⟨rfl,Or.inr ⟨rfl,?_⟩⟩⟩⟩,hproduced,rfl,rfl⟩
      omega
    · rw [hlast]
      dsimp only
      rw [unsent_equal _ hall, if_neg Bool.false_ne_true]
      refine ⟨Or.inr ⟨rfl,Or.inr ⟨rfl,Or.inr ⟨rfl,Or.inr ⟨rfl,?_⟩⟩⟩⟩,rfl,rfl,rfl⟩
      omega
  · cases hs

theorem pollRx_rank {mbuf : Bool} (h : Inv c s) (hs : s.pollRx mbuf = some t) : rank t < rank s ∧ Still s t := by
  unfold System.pollRx at hs
  split at hs
  · rename_i hpoll
    cases hs
    obtain ⟨n,hn⟩ := h.rxLine
    rw [decide_eq_true hpoll, Bool.true_or] at hn
    obtain ⟨hlower,hproduced,-,hend⟩ := rx_poll h.rx hpoll mbuf
    have hbefore : unsent s.rxUnit s.rx.handled s.rx.queue.produced = 0 := unsent_held hn
    have hafter : ∀ u, (u = if (s.rx.poll mbuf).queue.pc ≠ .idle then s.rxUnit
        else doorbell (s.rx.poll mbuf).queue.cqArm s.rxUnit) →
        unsent u (s.rx.poll mbuf).handled (s.rx.poll mbuf).queue.produced = 0 := by
      rintro u rfl
      by_cases hidle : (s.rx.poll mbuf).queue.pc = .idle
      · obtain ⟨hall,hhandled,-⟩ := hend hidle
        exact unsent_equal _ (by rw [hhandled, hproduced, hall])
      · rw [if_pos hidle]
        exact unsent_held hn
    rw [rank_lt]
    unfold System.unsent
    dsimp only
    rw [hbefore, hafter _ rfl]
    refine ⟨Or.inr ⟨rfl,Or.inr ⟨rfl,Or.inr ⟨rfl,Or.inr ⟨rfl,?_⟩⟩⟩⟩,rfl,hproduced,rfl⟩
    exact Nat.add_lt_add_left hlower _
  · cases hs

theorem raise_rank (h : Inv c s) (hs : s.raise = some t) : rank t < rank s ∧ Still s t := by
  obtain ⟨⟨ci,harm,hne⟩,rfl⟩ := raise_cases hs
  have hwaits := h.waits
  cases hpc : s.eq.pc with
  | idle =>
    rw [hpc] at hwaits
    obtain ⟨hci,hint⟩ | ⟨hnone,-⟩ := hwaits
    · have hbacklog : backlog s.eq ≠ 0 := by
        intro hzero
        rw [harm] at hci
        have hconsumed := h.eq.consumed
        have hequal : s.eq.consumed = s.eq.produced.length :=
          Nat.le_antisymm hconsumed (Nat.sub_eq_zero_iff_le.mp hzero)
        rw [Option.some.inj hci, hequal] at hne
        exact hne rfl
      have hphase : phase true s.eq < phase s.interrupt s.eq := by
        unfold phase
        rw [hpc, hint]
        dsimp only
        rw [if_neg Bool.false_ne_true, if_neg hbacklog]
        decide
      exact ⟨rank_lt.mpr (Or.inr ⟨rfl,Or.inr ⟨rfl,Or.inl hphase⟩⟩),rfl,rfl,rfl⟩
    · rw [harm] at hnone
      cases hnone
  | _ =>
    rw [hpc, Waits.of_ne (fun he => by cases he), harm] at hwaits
    cases hwaits.1

/-- An answer is due only where there is something to handle. -/
theorem unsent_send {u u' : ArmUnit 2 24} {consumed produced : ℕ} (hne : consumed ≠ produced) (hle : consumed ≤ produced)
    (hu : u.armed ≠ none) (hu' : u'.armed = none) : unsent u' consumed produced < unsent u consumed produced := by
  have hafter : unsent u' consumed produced = 0 := if_neg (fun h => h.1 hu')
  have hbefore : unsent u consumed produced = 1 := if_pos ⟨hu,lt_of_le_of_ne hle hne⟩
  rw [hafter, hbefore]
  decide

theorem notifyTx_rank {eqe : Eqe} (h : Inv c s) (hs : s.notifyTx c eqe = some t) : rank t < rank s ∧ Still s t := by
  obtain ⟨-,u,eq,hu,-,rfl⟩ := notifyTx_cases hs
  obtain ⟨n,hn⟩ := h.txLine
  obtain ⟨hne,harmed,hnone,-⟩ := hn.send hu
  have hless := unsent_send hne h.tx.consumed_le harmed hnone
  exact ⟨rank_lt.mpr (Or.inl (Nat.add_lt_add_right hless _)),rfl,rfl,rfl⟩

theorem notifyRx_rank {eqe : Eqe} (h : Inv c s) (hs : s.notifyRx c eqe = some t) : rank t < rank s ∧ Still s t := by
  obtain ⟨-,u,eq,hu,-,rfl⟩ := notifyRx_cases hs
  obtain ⟨n,hn⟩ := h.rxLine
  obtain ⟨hne,harmed,hnone,-⟩ := hn.send hu
  have hle : s.rx.handled ≤ s.rx.queue.produced := (Nat.le_add_right _ _).trans h.rx.counting.handled_le
  have hless := unsent_send hne hle harmed hnone
  exact ⟨rank_lt.mpr (Or.inl (Nat.add_lt_add_left hless _)),rfl,rfl,rfl⟩

/-- Each step of the path lowers the rank. -/
theorem path_rank {a : Action} (h : Inv c s) (ha : a.path = true) (hs : step c s a = some t) :
    rank t < rank s ∧ Still s t := by
  cases a with
  | handle before after => exact handle_rank h hs
  | pollTx => exact pollTx_rank h hs
  | pollRx mbuf => exact pollRx_rank h hs
  | raise => exact raise_rank h hs
  | notifyTx eqe => exact notifyTx_rank h hs
  | notifyRx eqe => exact notifyRx_rank h hs
  | _ => cases ha

/-! ## At rest -/

def Path (_ : System) (a : Action) : Prop := a.path = true

variable (c) in
/-- No part of the path has anything to do. -/
def AtRest (s : System) : Prop := ∀ a, a.path = true → step c s a = none

/-- All entries of both completion queues and of the event queue are handled, and the next entry will be noticed. -/
structure Settled (s : System) : Prop where
  tx : s.tx.consumed = s.tx.produced
  rx : s.rx.handled = s.rx.queue.produced
  events : s.eq.consumed = s.eq.produced.length
  txArmed : s.txUnit.armed = some (s.tx.fTxArmSn.setWidth 2,BitVec.ofNat 24 s.tx.produced)
  rxArmed : s.rxUnit.armed = some (s.rx.queue.fRxArmSn.setWidth 2,BitVec.ofNat 24 s.rx.queue.produced)

theorem rest_idle (h : AtRest c s) : ¬ s.polling ∧ s.eq.pc = .idle ∧ s.interrupt = false := by
  have htx : s.tx.polling = false := by
    refine Bool.eq_false_iff.mpr (fun hp => ?_)
    have hs : s.pollTx = none := h .pollTx rfl
    unfold System.pollTx at hs
    rw [if_pos hp] at hs
    cases hs
  have hrx : s.rx.queue.pc = .idle := by
    by_contra hp
    have hs : s.pollRx false = none := h (.pollRx false) rfl
    unfold System.pollRx at hs
    rw [if_pos hp] at hs
    cases hs
  have hpoll : ¬ s.polling := by
    rintro (hp | hp)
    · rw [htx] at hp
      cases hp
    · exact hp hrx
  have hs : s.handle c 0 0 = none := h (.handle 0 0) rfl
  unfold System.handle at hs
  rw [if_neg hpoll] at hs
  cases hpc : s.eq.pc with
  | idle =>
    refine ⟨hpoll,rfl,Bool.eq_false_iff.mpr (fun hint => ?_)⟩
    rw [hpc] at hs
    dsimp only at hs
    rw [if_pos hint] at hs
    cases hs
  | callbacks i left type =>
    rw [hpc] at hs
    cases left with
    | zero => cases hs
    | succ left =>
      dsimp only at hs
      split at hs <;> cases hs
  | _ =>
    rw [hpc] at hs
    cases hs

theorem rest_events (h : Inv c s) (hrest : AtRest c s) :
    s.eq.consumed = s.eq.produced.length ∧ s.eq.told = s.eq.consumed := by
  obtain ⟨-,hpc,hint⟩ := rest_idle hrest
  have hwaits := h.waits
  have htold := h.eq.told
  rw [hpc] at hwaits htold
  refine ⟨?_,htold⟩
  obtain ⟨harm,-⟩ | ⟨-,hpending⟩ := hwaits
  · have hs : s.raise = none := hrest .raise rfl
    unfold System.raise at hs
    rw [harm] at hs
    dsimp only at hs
    split at hs
    · rename_i hequal
      have hlap := EventQueue.lap h.eq
      have hsize : c.eq.size = 1024 := rfl
      exact (counter_inj h.eq.consumed (by omega)).mp hequal
    · cases hs
  · rw [hint] at hpending
    cases hpending

def eventFor (cqn : BitVec 24) (owner : Bool) : Eqe := ⟨completion,0,cqn.setWidth 224,0,if owner then 1 else 0⟩

theorem cqnOf_eventFor (cqn : BitVec 24) (owner : Bool) : cqnOf (eventFor cqn owner) = cqn.setWidth 32 := by
  apply BitVec.eq_of_getLsbD_eq
  intro i hi
  have hones : (0xffffff : BitVec 32).getLsbD i = decide (i < 24) := by
    rw [show (0xffffff : BitVec 32) = (BitVec.allOnes 24).setWidth 32 from rfl, BitVec.getLsbD_setWidth, BitVec.getLsbD_allOnes,
      decide_eq_true hi, Bool.true_and]
  have hwide : i < 224 := by omega
  unfold cqnOf RoCE.compCqn eventFor
  rw [BitVec.getLsbD_and, BitVec.getLsbD_setWidth, BitVec.getLsbD_setWidth, BitVec.getLsbD_setWidth, hones]
  by_cases hlow : i < 24
  · simp [hi, hwide, hlow]
  · have hnone : cqn.getLsbD i = false := BitVec.getLsbD_of_ge _ _ (Nat.le_of_not_lt hlow)
    simp [hnone]

/-- At rest the event queue has room for every event. -/
theorem rest_write (h : Inv c s) (hrest : AtRest c s) (cqn : BitVec 24) : ∃ owner eq,
    s.eq.write c.eq (eventFor cqn owner) = some eq := by
  obtain ⟨hall,htold⟩ := rest_events h hrest
  have hsize : 0 < c.eq.size := Nat.two_pow_pos c.eq.logSize
  have howner : ∀ b : Bool, (eventFor cqn b).owner.getLsbD 0 = b := by
    intro b
    cases b with
    | false =>
      show (0 : BitVec 8).getLsbD 0 = false
      decide
    | true =>
      show (1 : BitVec 8).getLsbD 0 = true
      decide
  refine ⟨s.eq.produced.length.testBit c.eq.logSize,_,if_pos ⟨?_,howner _⟩⟩
  omega

/-- The notice of a queue that is not polled is with the device, once there are no more events. -/
theorem rest_asked {u : ArmUnit 2 24} {sn : BitVec 2} {k : ℕ} {n : Notice} (h : Line u sn k 0 false n) :
    u.At sn k .asked := by
  have hpending := h.pending
  cases n with
  | asked => exact h.unit
  | sent => cases hpending
  | held => cases h.busy.mpr rfl

theorem settled (h : Inv c s) (hrest : AtRest c s) (hreg : s.fNotifierRegistered = true) : Settled s := by
  obtain ⟨hpoll,hpc,-⟩ := rest_idle hrest
  obtain ⟨hall,-⟩ := rest_events h hrest
  have hnone : s.ahead = [] := by
    have hdue := h.due
    rw [hpc] at hdue
    have hhandled : EventDelivery.handled s.due s.eq = s.eq.produced.length := by
      rw [EventDelivery.handled, if_pos (show s.due = none from hdue), hpc]
      exact hall
    unfold System.ahead
    rw [hhandled, List.drop_length]
  have htxIdle : s.tx.polling = false := Bool.eq_false_iff.mpr (fun hp => hpoll (Or.inl hp))
  have hrxIdle : decide (s.rx.queue.pc ≠ .idle) = false := decide_eq_false (fun hp => hpoll (Or.inr hp))
  obtain ⟨n,hn⟩ := h.txLine
  obtain ⟨k,hk⟩ := h.rxLine
  rw [hnone, htxIdle, hreg] at hn
  rw [hnone, hrxIdle, hreg] at hk
  have htxAsked := rest_asked hn
  have hrxAsked := rest_asked hk
  have hcompletion : ∀ cqn owner, (eventFor cqn owner).type = completion := fun _ _ => rfl
  -- a queue with new entries would be noticed
  have htx : s.tx.consumed = s.tx.produced := by
    by_contra hne
    have hlt := lt_of_le_of_ne h.tx.consumed_le hne
    have hlap := h.tx.produced_le.trans h.tx.room
    have hsize : 2 ^ TxQueue.logSqSize = 256 := rfl
    obtain ⟨u,hu⟩ := ArmUnit.At.answer htxAsked hlt (by omega)
    obtain ⟨owner,eq,heq⟩ := rest_write h hrest c.fTxCqn
    have hs : s.notifyTx c (eventFor c.fTxCqn owner) = none := hrest (.notifyTx _) rfl
    unfold System.notifyTx at hs
    rw [if_pos ⟨hcompletion _ _,cqnOf_eventFor _ _⟩, hu, Option.bind_some, heq] at hs
    cases hs
  have hrx : s.rx.handled = s.rx.queue.produced := by
    by_contra hne
    have hge := h.rx.counting.handled_le
    have hlap := h.rx.counting.produced_le
    have hone := s.rx.queue.pc.published_le.trans (s.rx.queue.pc.copied_le.trans s.rx.queue.pc.handling_le)
    have hlt : s.rx.handled < s.rx.queue.produced := by omega
    obtain ⟨u,hu⟩ := ArmUnit.At.answer hrxAsked hlt (by omega)
    obtain ⟨owner,eq,heq⟩ := rest_write h hrest c.fRxCqn
    have hs : s.notifyRx c (eventFor c.fRxCqn owner) = none := hrest (.notifyRx _) rfl
    unfold System.notifyRx at hs
    rw [if_pos ⟨hcompletion _ _,cqnOf_eventFor _ _⟩, hu, Option.bind_some, heq] at hs
    cases hs
  refine ⟨htx,hrx,hall,?_,?_⟩
  · rw [← htx]
    exact htxAsked
  · rw [← hrx]
    exact hrxAsked

/-! ## Every completion is handled -/

variable (c) in
/-- The path comes to rest, and then everything that had been completed is handled. -/
structure Drains (s : System) : Prop where
  ends : ∀ f, f 0 = s → ¬ Endless (step c) Path f
  rests : ∃ t, Reach (step c) Path s t ∧ AtRest c t
  handled : s.fNotifierRegistered = true → ∀ t, Reach (step c) Path s t → AtRest c t →
    t.tx.produced = s.tx.produced ∧ t.rx.queue.produced = s.rx.queue.produced ∧ Settled t

theorem Still.trans {u : System} (h : Still s t) (h' : Still t u) : Still s u :=
  ⟨h'.tx.trans h.tx,h'.rx.trans h.rx,h'.registered.trans h.registered⟩

theorem Inv.drains (h : Inv c s) : Drains c s := by
  have hstep : ∀ (s : System) (a : Action) (t : System), Inv c s → Path s a → step c s a = some t →
      Inv c t ∧ rank t < rank s := fun _ _ _ h ha hs => ⟨step_inv h hs,(path_rank h ha hs).1⟩
  refine ⟨fun f hf => ?_,exists_rest rank hstep h,fun hreg t hr hrest => ?_⟩
  · refine not_endless rank hstep ?_
    rw [hf]
    exact h
  · have hboth : Inv c t ∧ Still s t := by
      refine hr.invariant (J := fun u => Inv c u ∧ Still s u) ⟨h,rfl,rfl,rfl⟩ ?_
      rintro u a v ⟨hu,hstill⟩ ha hs
      exact ⟨step_inv hu hs,hstill.trans (path_rank hu ha hs).2⟩
    exact ⟨hboth.2.tx,hboth.2.rx,settled hboth.1 hrest (hboth.2.registered.trans hreg)⟩

theorem completions_run (hr : Reach (step c) Free (initial c) s) : Drains c s := (reach_inv hr).drains

/-- A packet is sent and completed, and the device is about to say so. -/
def sentActions : List Action :=
  [.enable,.tx (.output 0 ⟨1,[7]⟩),.tx (.locked 0),.tx (.complete ⟨0,0,0⟩)]

theorem rx_isSome : (RxQueue.State.createRxResources 9 8192).isSome = true := by
  obtain ⟨wq,hwq⟩ := RxQueue.State.createRxResources_eq 9 8192
  rw [hwq]
  rfl

theorem cqns_ne : (4 : BitVec 24) ≠ 5 := by decide

theorem pool_ne : (8192 : BitVec 64) ≠ 0 := by decide

def onePacket : Setup := ⟨3,⟨1,9,4096,0⟩,2,4,5,cqns_ne,8192,pool_ne,_,(Option.some_get rx_isSome).symm⟩

theorem completions_run_onePacket : ∃ s : System, s.fNotifierRegistered = true ∧ s.tx.consumed = 0 ∧ s.tx.produced = 1 ∧
    Drains onePacket s := by
  have hrun : (after (step onePacket) sentActions (initial onePacket)).any
      (fun s => s.fNotifierRegistered && decide (s.tx.consumed = 0) && decide (s.tx.produced = 1)) = true := by
        decide +kernel
  obtain ⟨s,hs,hsent⟩ := (Option.any_eq_true _ _).mp hrun
  simp only [Bool.and_eq_true, decide_eq_true_eq] at hsent
  exact ⟨s,hsent.1.1,hsent.1.2,hsent.2,completions_run (reach_of_after sentActions .start hs)⟩

end AppleMCX.CompletionPath
