import AppleMCX.Netif.TxQueue
import Mathlib.Data.List.Nodup

/-! # Every packet is freed once

The three counters are the numbers of posted WQEs and of consumed CQEs, cut to their
widths. The mbufs in the ring are those of the WQEs between the two, until DESTROY_SQ has
succeeded and all of them are freed.
-/
namespace AppleMCX.TxQueue
open Hw Interaction

/-- The caller has the packet. -/
def CallPc.loose : CallPc → Bool
  | .absent | .waiting _ | .stalled => true
  | _ => false

namespace State

/-- Posted, and its CQE not consumed yet. -/
def Outstanding (s : State) (n : ℕ) : Prop := s.consumed ≤ n ∧ n < s.posted

/-- The device's entry number `p`. -/
def Completion (p : ℕ) (cqe : Cqe) : Prop := cqe.Written logSqSize p ∧ cqe.wqeCounter = BitVec.ofNat 16 p

/-- How often the mbuf of a packet has been freed. -/
def owed (s : State) : CallPc → ℕ
  | .dropped => 1
  | .sent n => if n < s.consumed ∨ s.fSqn = none then 1 else 0
  | _ => 0

/-- While the SQ exists. -/
structure Live (s : State) : Prop where
  pc : s.fTxPc = BitVec.ofNat 16 s.posted
  cc : s.fTxCc = BitVec.ofNat 16 s.consumed
  cqCc : s.fTxCqCc = BitVec.ofNat 32 s.consumed
  db : s.sqDb = some (BitVec.ofNat 16 s.posted)
  destroyPc : s.destroyPc = .sq
  cqes : RingWritten (2 ^ logSqSize) Completion (· = Cqe.created) s.fTxCqBuf s.produced
  sent : ∀ m n, s.calls m = .sent n → n < s.posted ∧ (s.consumed ≤ n → s.fWqeMbuf (n % 2 ^ logSqSize) = some m)
  stored : ∀ j m, s.fWqeMbuf j = some m → ∃ n, s.Outstanding n ∧ n % 2 ^ logSqSize = j ∧ s.calls m = .sent n
  full : ∀ n, s.Outstanding n → ∃ m, s.calls m = .sent n

/-- Once DESTROY_SQ has succeeded. -/
structure Dead (s : State) : Prop where
  unregistered : s.fNotifierRegistered = false
  empty : ∀ j, s.fWqeMbuf j = none
  window : (s.fTxPc - s.fTxCc).toNat ≤ 2 ^ logSqSize

structure Inv (s : State) : Prop where
  consumed_le : s.consumed ≤ s.produced
  produced_le : s.produced ≤ s.posted
  room : s.posted ≤ s.consumed + 2 ^ logSqSize
  kept : ∀ n, s.Outstanding n → (s.slots (n % 2 ^ logSqSize)).number = n
  quiet : s.fNotifierRegistered = false → s.polling = false
  live : s.fSqn.isSome = true → s.Live
  dead : s.fSqn = none → s.Dead
  count : ∀ m, s.freed.count m = s.owed (s.calls m)

variable {s t : State} {m : ℕ}

theorem inv_initial (fSqn fTxCqn fTisn fLkey : BitVec 32) (fTxBufDMA : BitVec 64) (fTxMinInlineMode : BitVec 8) :
    (initial fSqn fTxCqn fTisn fLkey fTxBufDMA fTxMinInlineMode).Inv := by
  refine ⟨le_rfl,le_rfl,Nat.zero_le _,fun n hn => absurd hn.2 (Nat.not_lt_zero n),fun h => (by cases h),fun _ => ?_,
    fun h => (by cases h),fun m => rfl⟩
  refine ⟨rfl,rfl,rfl,rfl,rfl,ringWritten_zero (fun _ _ => rfl),?_,?_,?_⟩
  · intro m n h
    cases h
  · intro j m h
    cases h
  · intro n hn
    exact absurd hn.2 (Nat.not_lt_zero n)

/-! ## What does not concern the ring -/

theorem Live.irrelevant (h : s.Live) (a b c g : Bool) (d f : BitVec 32) (e : BitVec 24) :
    ({ s with
      fEnabled := a
      fDisabling := b
      fNotifierRegistered := c
      fTxArmSn := d
      cqDb := e
      cqArm := f
      polling := g } : State).Live :=
  ⟨h.pc,h.cc,h.cqCc,h.db,h.destroyPc,h.cqes,h.sent,h.stored,h.full⟩

theorem Inv.irrelevant (h : s.Inv) {a b c g : Bool} {d f : BitVec 32} {e : BitVec 24} (hquiet : c = false → g = false)
    (hdead : s.fSqn = none → c = false) :
    ({ s with
      fEnabled := a
      fDisabling := b
      fNotifierRegistered := c
      fTxArmSn := d
      cqDb := e
      cqArm := f
      polling := g } : State).Inv :=
  ⟨h.consumed_le,h.produced_le,h.room,h.kept,hquiet,fun hs => (h.live hs).irrelevant a b c g d f e,
    fun hs => ⟨hdead hs,(h.dead hs).empty,(h.dead hs).window⟩,h.count⟩

theorem Inv.setCall (h : s.Inv) {c : CallPc} {freed : List ℕ} (hold : (s.calls m).loose = true) (hnew : ∀ n, c ≠ .sent n)
    (hself : freed.count m = s.owed c) (hothers : ∀ k, k ≠ m → freed.count k = s.freed.count k) :
    ({ s with freed := freed }.setCall m c : State).Inv := by
  have hne : ∀ {k n}, s.calls k = .sent n → k ≠ m := by
    rintro k n hk rfl
    rw [hk] at hold
    cases hold
  refine ⟨h.consumed_le,h.produced_le,h.room,h.kept,h.quiet,fun hs => ?_,fun hs => ?_,fun k => ?_⟩
  · have hl := h.live hs
    refine ⟨hl.pc,hl.cc,hl.cqCc,hl.db,hl.destroyPc,hl.cqes,?_,?_,?_⟩
    · intro k n hk
      by_cases hkm : k = m
      · simp only [State.setCall, hkm, Function.update_self] at hk
        exact absurd hk (hnew n)
      · simp only [State.setCall, Function.update_of_ne hkm] at hk
        exact hl.sent k n hk
    · intro j k hj
      obtain ⟨n,hn,hnj,hk⟩ := hl.stored j k hj
      exact ⟨n,hn,hnj,(Function.update_of_ne (hne hk) _ _).trans hk⟩
    · intro n hn
      obtain ⟨k,hk⟩ := hl.full n hn
      exact ⟨k,(Function.update_of_ne (hne hk) _ _).trans hk⟩
  · exact ⟨(h.dead hs).unregistered,(h.dead hs).empty,(h.dead hs).window⟩
  · by_cases hkm : k = m
    · subst hkm
      simp only [State.setCall, Function.update_self]
      exact hself
    · simp only [State.setCall, Function.update_of_ne hkm]
      rw [hothers k hkm]
      exact h.count k

theorem owed_loose {c : CallPc} (h : c.loose = true) : s.owed c = 0 := by
  cases c with
  | absent | waiting | stalled => rfl
  | dropped | sent => cases h

theorem Inv.hold (h : s.Inv) {c : CallPc} (hold : (s.calls m).loose = true) (hnew : c.loose = true) :
    (s.setCall m c).Inv := by
  have hcount : s.freed.count m = s.owed c := by rw [h.count, owed_loose hold, owed_loose hnew]
  refine h.setCall hold (fun n hn => ?_) hcount (fun k _ => rfl)
  rw [hn] at hnew
  cases hnew

theorem Inv.drop (h : s.Inv) (hold : (s.calls m).loose = true) : (s.drop m).Inv := by
  refine h.setCall hold (fun n => by simp) ?_ (fun k hk => ?_)
  · have hzero : s.freed.count m = 0 := by rw [h.count, owed_loose hold]
    rw [List.count_append, hzero, List.count_singleton_self]
    rfl
  · rw [List.count_append, List.count_singleton, if_neg (by simpa using Ne.symm hk), Nat.add_zero]

theorem Inv.output (h : s.Inv) (p : Packet) (hold : (s.calls m).loose = true) : (s.output m p).Inv := by
  have hstall : (s.setCall m .stalled).Inv := h.hold hold rfl
  have hwait : (s.setCall m (.waiting p)).Inv := h.hold hold rfl
  have hdrop := h.drop hold
  simp only [State.output]
  split_ifs <;> assumption

/-! ## Posting -/

theorem Inv.write (h : s.Inv) (hroom : s.posted < s.consumed + 2 ^ logSqSize) (wqe : EthTxWqe) (buffer : List (BitVec 8)) :
    ({ s with
      slots := Function.update s.slots (s.posted % 2 ^ logSqSize) ⟨wqe,buffer,s.posted⟩ } : State).Inv := by
  refine ⟨h.consumed_le,h.produced_le,h.room,fun n hn => ?_,h.quiet,fun hs => ?_,fun hs => ?_,h.count⟩
  · obtain ⟨hle,hlt⟩ := hn
    dsimp only at hle hlt ⊢
    rw [Function.update_of_ne (slot_ne hlt (by omega)).symm]
    exact h.kept n ⟨hle,hlt⟩
  · have hl := h.live hs
    exact ⟨hl.pc,hl.cc,hl.cqCc,hl.db,hl.destroyPc,hl.cqes,hl.sent,hl.stored,hl.full⟩
  · exact ⟨(h.dead hs).unregistered,(h.dead hs).empty,(h.dead hs).window⟩

theorem Live.slot (h : s.Live) : (s.fTxPc &&& 255).toNat = s.posted % 2 ^ logSqSize := by
  rw [h.pc]
  exact counter_mask (k := 8) (by decide) s.posted

theorem Live.window (h : s.Live) (hle : s.consumed ≤ s.posted) (hroom : s.posted ≤ s.consumed + 2 ^ logSqSize) :
    (s.fTxPc - s.fTxCc).toNat = s.posted - s.consumed := by
  have h16 : 2 ^ logSqSize < 2 ^ 16 := by decide
  rw [h.pc, h.cc]
  exact counter_sub hle (by omega)

theorem Inv.post (h : s.Inv) (hlive : s.fSqn.isSome = true) (hroom : s.posted < s.consumed + 2 ^ logSqSize)
    (hold : (s.calls m).loose = true) (wqe : EthTxWqe) (buffer : List (BitVec 8)) :
    (s.post m (s.posted % 2 ^ logSqSize) wqe buffer).Inv := by
  have hl := h.live hlive
  have hle := h.consumed_le.trans h.produced_le
  have hne : ∀ {k n}, s.calls k = .sent n → k ≠ m := by
    rintro k n hk rfl
    rw [hk] at hold
    cases hold
  have hslot : ∀ n, s.consumed ≤ n → n < s.posted → n % 2 ^ logSqSize ≠ s.posted % 2 ^ logSqSize :=
    fun n hn hlt => (slot_ne hlt (by omega)).symm
  refine ⟨h.consumed_le,h.produced_le.trans (Nat.le_succ _),Nat.succ_le_of_lt hroom,fun n hn => ?_,
    h.quiet,fun _ => ?_,fun hs => ?_,fun k => ?_⟩
  · obtain ⟨hcn,hnp⟩ := hn
    simp only [State.post, State.setCall] at hcn hnp ⊢
    by_cases he : n = s.posted
    · rw [he, Function.update_self]
    · rw [Function.update_of_ne (hslot n hcn (by omega))]
      exact h.kept n ⟨hcn,by omega⟩
  · refine ⟨?_,hl.cc,hl.cqCc,?_,hl.destroyPc,hl.cqes,?_,?_,?_⟩
    · simp only [State.post, State.setCall]
      rw [hl.pc, counter_succ]
    · simp only [State.post, State.setCall]
      rw [hl.db, hl.pc, counter_succ]
      rfl
    · intro k n hk
      simp only [State.post, State.setCall] at hk ⊢
      by_cases hkm : k = m
      · rw [hkm, Function.update_self] at hk
        obtain rfl := CallPc.sent.inj hk
        exact ⟨Nat.lt_succ_self _,fun _ => by rw [hkm, Function.update_self]⟩
      · rw [Function.update_of_ne hkm] at hk
        obtain ⟨hlt,hstored⟩ := hl.sent k n hk
        refine ⟨Nat.lt_succ_of_lt hlt,fun hn => ?_⟩
        rw [Function.update_of_ne (hslot n hn hlt)]
        exact hstored hn
    · intro j k hj
      simp only [State.post, State.setCall] at hj ⊢
      by_cases hjs : j = s.posted % 2 ^ logSqSize
      · rw [hjs, Function.update_self] at hj
        obtain rfl := Option.some.inj hj
        exact ⟨s.posted,⟨hle,Nat.lt_succ_self _⟩,hjs.symm,Function.update_self ..⟩
      · rw [Function.update_of_ne hjs] at hj
        obtain ⟨n,hn,hnj,hk⟩ := hl.stored j k hj
        exact ⟨n,⟨hn.1,Nat.lt_succ_of_lt hn.2⟩,hnj,(Function.update_of_ne (hne hk) _ _).trans hk⟩
    · intro n hn
      by_cases he : n = s.posted
      · exact ⟨m,by rw [he]; exact Function.update_self ..⟩
      · obtain ⟨k,hk⟩ := hl.full n ⟨hn.1,lt_of_le_of_ne (Nat.le_of_lt_succ hn.2) he⟩
        exact ⟨k,(Function.update_of_ne (hne hk) _ _).trans hk⟩
  · rw [show s.fSqn = none from hs] at hlive
    cases hlive
  · simp only [State.post, State.setCall]
    by_cases hkm : k = m
    · subst hkm
      have howed : s.owed (.sent s.posted) = 0 :=
        if_neg (not_or.mpr ⟨by omega,fun hs => by rw [hs] at hlive; cases hlive⟩)
      rw [Function.update_self, h.count, owed_loose hold]
      exact howed.symm
    · rw [Function.update_of_ne hkm]
      exact h.count k

theorem Inv.locked (h : s.Inv) (p : Packet) (hold : (s.calls m).loose = true) : (s.locked m p).Inv := by
  have hstall : (s.setCall m .stalled).Inv := h.hold hold rfl
  unfold State.locked
  split
  · exact hstall
  · rename_i sqn hsqn
    have hlive : s.fSqn.isSome = true := by rw [hsqn]; rfl
    have hl := h.live hlive
    rw [hl.slot]
    dsimp only
    split_ifs with hup hfull hshort hinline
    · exact hstall
    · exact hstall
    all_goals
      rw [hl.window (h.consumed_le.trans h.produced_le) h.room] at hfull
      have hroom : s.posted < s.consumed + 2 ^ logSqSize := by omega
    · exact (h.write hroom _ _).drop hold
    · exact (h.write hroom _ _).drop hold
    · exact h.post hlive hroom hold _ _

/-! ## Completions -/

theorem Inv.complete {cqe : Cqe} (h : s.Inv) (hs : s.complete cqe = some t) : t.Inv := by
  simp only [State.complete] at hs
  split at hs
  · rename_i hc
    obtain ⟨hlive,_,hdb,hwritten,hcounter⟩ := hc
    cases hs
    have hl := h.live hlive
    have hlt : s.produced < s.posted := by
      refine lt_of_le_of_ne h.produced_le (fun he => hdb ?_)
      rw [hl.db, he]
    refine ⟨h.consumed_le.trans (Nat.le_succ _),hlt,h.room,h.kept,h.quiet,fun _ => ?_,fun hd => ?_,h.count⟩
    · exact ⟨hl.pc,hl.cc,hl.cqCc,hl.db,hl.destroyPc,hl.cqes.write ⟨hwritten,hcounter⟩,hl.sent,hl.stored,hl.full⟩
    · rw [show s.fSqn = none from hd] at hlive
      cases hlive
  · cases hs

/-- The poll finds exactly the CQEs the device has written. -/
theorem Inv.ready_iff (h : s.Inv) (hl : s.Live) : s.cqe.ready logSqSize s.fTxCqCc = true ↔ s.consumed < s.produced := by
  have hix : (s.fTxCqCc &&& 255).toNat = s.consumed % 2 ^ logSqSize := by
    rw [hl.cqCc]
    exact counter_mask (k := 8) (by decide) s.consumed
  rw [State.cqe, hix, hl.cqCc]
  exact Cqe.ready_ring (by decide) hl.cqes (fun _ _ hc => hc.1) h.consumed_le (h.produced_le.trans h.room)

/-- Such a CQE carries the counter of the oldest WQE. -/
theorem Inv.target (h : s.Inv) (hl : s.Live) (hlt : s.consumed < s.produced) : s.cqe.wqeCounter = s.fTxCc := by
  have hix : (s.fTxCqCc &&& 255).toNat = s.consumed % 2 ^ logSqSize := by
    rw [hl.cqCc]
    exact counter_mask (k := 8) (by decide) s.consumed
  rw [State.cqe, hix, hl.cc]
  exact (hl.cqes.written s.consumed hlt (h.produced_le.trans h.room)).2

theorem retire_target {fuel : ℕ} {target : BitVec 16} (h : s.fTxCc = target) :
    retire (fuel + 1) target s = s.retireOne := by
  simp only [retire, h, true_or, if_true]

theorem Live.retireOne (hl : s.Live) (hout : s.Outstanding s.consumed) :
    ∃ m, s.calls m = .sent s.consumed ∧ s.retireOne =
    { s with
      freed := s.freed ++ [m]
      fWqeMbuf := Function.update s.fWqeMbuf (s.consumed % 2 ^ logSqSize) none
      fTxCc := s.fTxCc + 1 } := by
  obtain ⟨m,hm⟩ := hl.full _ hout
  have hslot := (hl.sent m _ hm).2 le_rfl
  have hix : (s.fTxCc &&& 255).toNat = s.consumed % 2 ^ logSqSize := by
    rw [hl.cc]
    exact counter_mask (k := 8) (by decide) s.consumed
  refine ⟨m,hm,?_⟩
  unfold State.retireOne
  rw [hix]
  simp only [hslot]

/-- A CQE retires the oldest WQE and frees its mbuf. -/
theorem Inv.retired (h : s.Inv) (hl : s.Live) (hlt : s.consumed < s.produced) :
    ({ s.retireOne with fTxCqCc := s.fTxCqCc + 1, consumed := s.consumed + 1 } : State).Inv := by
  have hout : s.Outstanding s.consumed := ⟨le_rfl,lt_of_lt_of_le hlt h.produced_le⟩
  obtain ⟨m,hm,he⟩ := hl.retireOne hout
  rw [he]
  have hroom := h.room
  have hkeep : ∀ n, s.consumed + 1 ≤ n → n < s.posted → n % 2 ^ logSqSize ≠ s.consumed % 2 ^ logSqSize :=
    fun n hn hp => slot_ne hn (by omega)
  refine ⟨hlt,h.produced_le,by dsimp only; omega,fun n hn => h.kept n ⟨(Nat.le_succ _).trans hn.1,hn.2⟩,h.quiet,
    fun _ => ?_,fun hd => ?_,fun k => ?_⟩
  · refine ⟨hl.pc,?_,?_,hl.db,hl.destroyPc,hl.cqes,?_,?_,?_⟩
    · dsimp only
      rw [hl.cc, counter_succ]
    · dsimp only
      rw [hl.cqCc, counter_succ]
    · intro k n hk
      obtain ⟨hp,hstored⟩ := hl.sent k n hk
      refine ⟨hp,fun hn => ?_⟩
      exact (Function.update_of_ne (hkeep n hn hp) _ _).trans (hstored ((Nat.le_succ _).trans hn))
    · intro j k hj
      dsimp only at hj
      rw [Function.update_apply] at hj
      split at hj
      · cases hj
      · rename_i hjs
        obtain ⟨n,hn,hnj,hk⟩ := hl.stored j k hj
        have hne : n ≠ s.consumed := fun hne => hjs (by rw [← hnj, hne])
        exact ⟨n,⟨Nat.lt_of_le_of_ne hn.1 (Ne.symm hne),hn.2⟩,hnj,hk⟩
    · intro n hn
      exact hl.full n ⟨(Nat.le_succ _).trans hn.1,hn.2⟩
  · have hd := h.dead hd
    have hslot := (hl.sent m _ hm).2 le_rfl
    rw [hd.empty] at hslot
    cases hslot
  · dsimp only
    rw [List.count_append, h.count]
    by_cases hkm : k = m
    · subst hkm
      rw [List.count_singleton_self, hm]
      have hnone : s.fSqn ≠ none := by
        intro hd
        have hslot := (hl.sent k _ hm).2 le_rfl
        rw [(h.dead hd).empty] at hslot
        cases hslot
      simp [owed, hnone]
    · rw [List.count_singleton, if_neg (by simpa using Ne.symm hkm), Nat.add_zero]
      cases hk : s.calls k with
      | sent n =>
        have hne : n ≠ s.consumed := by
          rintro rfl
          have h₁ := (hl.sent k _ hk).2 le_rfl
          rw [(hl.sent m _ hm).2 le_rfl] at h₁
          exact hkm (Option.some.inj h₁).symm
        have hiff : n < s.consumed ↔ n < s.consumed + 1 := by omega
        simp only [owed, hiff]
      | _ => rfl

theorem Inv.pollCqe (h : s.Inv) (hpoll : s.polling = true) : s.pollCqe.Inv := by
  have hreg : s.fNotifierRegistered ≠ false := by
    intro hr
    rw [h.quiet hr] at hpoll
    cases hpoll
  have hdead : s.fSqn = none → s.fNotifierRegistered = false := fun hd => (h.dead hd).unregistered
  unfold State.pollCqe
  split
  · rename_i hready
    have hl : s.Live := by
      refine h.live (Option.isSome_iff_ne_none.mpr (fun hd => hreg (hdead hd)))
    have hlt := (h.ready_iff hl).mp hready
    rw [h.target hl hlt, show 2 ^ 16 = 65535 + 1 from rfl, retire_target rfl]
    exact h.retired hl hlt
  · exact h.irrelevant (fun _ => rfl) hdead

/-! ## The end -/

theorem Live.injective (hl : s.Live) (j j' m : ℕ) (hj : s.fWqeMbuf j = some m) (hj' : s.fWqeMbuf j' = some m) :
    j = j' := by
  obtain ⟨n,_,hn,hm⟩ := hl.stored j m hj
  obtain ⟨n',_,hn',hm'⟩ := hl.stored j' m hj'
  rw [hm] at hm'
  rw [← hn, ← hn', CallPc.sent.inj hm']

/-- An mbuf is once among those left in the ring if its WQE is outstanding, and else not at all. -/
theorem Live.count_left (hl : s.Live) (m : ℕ) : ((List.range (2 ^ logSqSize)).filterMap s.fWqeMbuf).count m =
    match s.calls m with
    | .sent n => if n < s.consumed then 0 else 1
    | _ => 0 := by
  have hnodup : ((List.range (2 ^ logSqSize)).filterMap s.fWqeMbuf).Nodup :=
    List.Nodup.filterMap hl.injective List.nodup_range
  have hmem : m ∈ (List.range (2 ^ logSqSize)).filterMap s.fWqeMbuf ↔
      ∃ n, s.Outstanding n ∧ s.calls m = .sent n := by
    rw [List.mem_filterMap]
    constructor
    · rintro ⟨j,_,hj⟩
      obtain ⟨n,hn,_,hm⟩ := hl.stored j m hj
      exact ⟨n,hn,hm⟩
    · rintro ⟨n,hn,hm⟩
      exact ⟨n % 2 ^ logSqSize,List.mem_range.mpr (Nat.mod_lt _ (by decide)),(hl.sent m n hm).2 hn.1⟩
  by_cases hin : m ∈ (List.range (2 ^ logSqSize)).filterMap s.fWqeMbuf
  · obtain ⟨n,hn,hm⟩ := hmem.mp hin
    rw [List.count_eq_one_of_mem hnodup hin, hm]
    exact (if_neg (Nat.not_lt.mpr hn.1)).symm
  · rw [List.count_eq_zero_of_not_mem hin]
    cases hm : s.calls m with
    | sent n =>
      have hlt : n < s.consumed := by
        by_contra hge
        exact hin (hmem.mpr ⟨n,⟨Nat.not_lt.mp hge,(hl.sent m n hm).1⟩,hm⟩)
      exact (if_pos hlt).symm
    | _ => rfl

theorem Inv.releaseSq (h : s.Inv) (hl : s.Live) (hsq : s.fSqn.isSome = true) (hreg : s.fNotifierRegistered = false) :
    s.releaseSq.Inv := by
  have hwindow := hl.window (h.consumed_le.trans h.produced_le) h.room
  refine ⟨h.consumed_le,h.produced_le,h.room,h.kept,h.quiet,fun hs => (by cases hs),fun _ => ⟨hreg,fun _ => rfl,?_⟩,
    fun m => ?_⟩
  · show (s.fTxPc - s.fTxCc).toNat ≤ _
    rw [hwindow]
    exact Nat.sub_le_iff_le_add'.mpr h.room
  · show (s.freed ++ (List.range (2 ^ logSqSize)).filterMap s.fWqeMbuf).count m = _
    rw [List.count_append, h.count, hl.count_left]
    have hnone : s.fSqn ≠ none := Option.isSome_iff_ne_none.mp hsq
    show s.owed (s.calls m) + _ = s.releaseSq.owed (s.calls m)
    cases s.calls m with
    | sent n =>
      by_cases hn : n < s.consumed <;> simp [owed, State.releaseSq, hn, hnone]
    | _ => rfl

/-- Once the SQ is gone, the rest of the teardown does not matter for the packets. -/
theorem Inv.later (h : s.Inv) (hd : s.fSqn = none) (cqn tisn : Option (BitVec 32)) (pc cc : BitVec 16)
    (cqCc armSn : BitVec 32) (dpc : DestroyPc) (hwindow : (pc - cc).toNat ≤ 2 ^ logSqSize) :
    ({ s with
      fTxCqn := cqn
      fTisn := tisn
      fTxPc := pc
      fTxCc := cc
      fTxCqCc := cqCc
      fTxArmSn := armSn
      destroyPc := dpc } : State).Inv := by
  refine ⟨h.consumed_le,h.produced_le,h.room,h.kept,h.quiet,fun hs => ?_,fun _ => ?_,h.count⟩
  · rw [show ({ s with fTxCqn := cqn } : State).fSqn = none from hd] at hs
    cases hs
  · exact ⟨(h.dead hd).unregistered,(h.dead hd).empty,hwindow⟩

/-- Releasing again frees nothing. -/
theorem Inv.releaseAgain (h : s.Inv) (hd : s.fSqn = none) : s.releaseSq.Inv := by
  have hdead := h.dead hd
  have hnone : s.fWqeMbuf = fun _ => none := funext hdead.empty
  have hleft : (List.range (2 ^ logSqSize)).filterMap s.fWqeMbuf = [] := by
    rw [hnone]
    exact List.filterMap_eq_nil_iff.mpr (fun _ _ => rfl)
  refine ⟨h.consumed_le,h.produced_le,h.room,h.kept,h.quiet,fun hs => (by cases hs),fun _ => ?_,fun m => ?_⟩
  · exact ⟨hdead.unregistered,fun _ => rfl,hdead.window⟩
  · show (s.freed ++ (List.range (2 ^ logSqSize)).filterMap s.fWqeMbuf).count m = s.releaseSq.owed (s.calls m)
    rw [hleft, List.append_nil, h.count]
    simp only [owed, State.releaseSq, hd]

theorem Inv.destroy (h : s.Inv) (hreg : s.fNotifierRegistered = false) (kr : IOReturn) : (s.destroy kr).Inv := by
  have hgone : s.destroyPc ≠ .sq → s.fSqn = none := by
    intro hpc
    by_contra hsome
    exact hpc (h.live (Option.isSome_iff_ne_none.mpr hsome)).destroyPc
  unfold State.destroy
  cases hpc : s.destroyPc with
  | sq =>
    dsimp only
    split
    · exact h
    · cases hsq : s.fSqn with
      | none => exact h.releaseAgain hsq
      | some sqn =>
        have hsome : s.fSqn.isSome = true := by rw [hsq]; rfl
        exact h.releaseSq (h.live hsome) hsome hreg
  | cq =>
    have hd := hgone (by rw [hpc]; simp)
    dsimp only
    split <;> exact h.later hd _ _ _ _ _ _ _ (h.dead hd).window
  | tis =>
    have hd := hgone (by rw [hpc]; simp)
    dsimp only
    split
    · exact h.later hd _ _ _ _ _ _ _ (h.dead hd).window
    · exact h.later hd _ _ 0 0 _ _ _ (by decide)

theorem step_inv {a : Action} (h : s.Inv) (hs : s.step a = some t) : t.Inv := by
  have hdead : s.fSqn = none → s.fNotifierRegistered = false := fun hd => (h.dead hd).unregistered
  cases a with
  | output m p =>
    simp only [step] at hs
    split at hs
    · rename_i hm
      cases hs
      exact h.output p (by rw [hm]; rfl)
    · rename_i hm
      cases hs
      exact h.output p (by rw [hm]; rfl)
    · cases hs
  | locked m =>
    simp only [step] at hs
    split at hs
    · rename_i p hm
      split at hs
      · cases hs
      · cases hs
        exact h.locked p (by rw [hm]; rfl)
    · cases hs
  | complete cqe => exact h.complete hs
  | poll =>
    simp only [step] at hs
    split at hs
    · rename_i hreg
      cases hs
      refine h.irrelevant (fun hr => ?_) hdead
      rw [hreg.1] at hr
      cases hr
    · cases hs
  | pollCqe =>
    simp only [step] at hs
    split at hs
    · rename_i hpoll
      cases hs
      exact h.pollCqe hpoll
    · cases hs
  | disable =>
    simp only [step] at hs
    split at hs
    · cases hs
    · cases hs
      exact h.irrelevant h.quiet hdead
  | synchronize =>
    simp only [step] at hs
    split at hs
    · rename_i hpoll
      cases hs
      exact h.irrelevant (fun _ => by simpa using hpoll.2) (fun _ => rfl)
    · cases hs
  | destroy kr =>
    simp only [step] at hs
    split at hs
    · rename_i hreg
      cases hs
      exact h.destroy (by simpa using hreg.2) kr
    · cases hs

/-! ## The ring of the driver -/

/-- The slot of a counter in [`fTxCc`, `fTxPc`). -/
def InWindow (s : State) (j : ℕ) : Prop :=
  ∃ k < (s.fTxPc - s.fTxCc).toNat, ((s.fTxCc + BitVec.ofNat 16 k) &&& 255).toNat = j

/-- What the driver keeps right in every state of a run. -/
structure Correct (s : State) : Prop where
  window : (s.fTxPc - s.fTxCc).toNat ≤ 2 ^ logSqSize
  holds : s.fSqn.isSome = true → ∀ j, (s.fWqeMbuf j).isSome = true ↔ s.InWindow j
  empty : s.fSqn = none → ∀ j, s.fWqeMbuf j = none
  kept : ∀ n, s.Outstanding n → (s.slots (n % 2 ^ logSqSize)).number = n
  dropped : ∀ m, s.calls m = .dropped → s.freed.count m = 1
  sent : ∀ m n, s.calls m = .sent n → s.freed.count m = if n < s.consumed ∨ s.fSqn = none then 1 else 0
  stalled : ∀ m, s.calls m = .stalled → s.freed.count m = 0 ∧ ∀ j, s.fWqeMbuf j ≠ some m

theorem Inv.inWindow (h : s.Inv) (hl : s.Live) (j : ℕ) :
    s.InWindow j ↔ ∃ n, s.Outstanding n ∧ n % 2 ^ logSqSize = j := by
  have hslot : ∀ k, ((s.fTxCc + BitVec.ofNat 16 k) &&& 255).toNat = (s.consumed + k) % 2 ^ logSqSize := by
    intro k
    rw [hl.cc, ← BitVec.ofNat_add]
    exact counter_mask (k := 8) (by decide) (s.consumed + k)
  have hwindow := hl.window (h.consumed_le.trans h.produced_le) h.room
  unfold InWindow
  rw [hwindow]
  constructor
  · rintro ⟨k,hk,hj⟩
    exact ⟨s.consumed + k,⟨Nat.le_add_right _ _,by omega⟩,(hslot k).symm.trans hj⟩
  · rintro ⟨n,⟨hle,hlt⟩,hj⟩
    refine ⟨n - s.consumed,by omega,?_⟩
    rw [hslot, Nat.add_sub_cancel' hle, hj]

theorem Inv.correct (h : s.Inv) : s.Correct := by
  refine ⟨?_,fun hsq j => ?_,fun hd => (h.dead hd).empty,h.kept,fun m hm => ?_,
    fun m n hm => ?_,fun m hm => ⟨?_,fun j hj => ?_⟩⟩
  · cases hsq : s.fSqn with
    | none => exact (h.dead hsq).window
    | some sqn =>
      have hl := h.live (by rw [hsq]; rfl)
      rw [hl.window (h.consumed_le.trans h.produced_le) h.room]
      exact Nat.sub_le_iff_le_add'.mpr h.room
  · have hl := h.live hsq
    rw [h.inWindow hl]
    constructor
    · intro hj
      obtain ⟨m,hm⟩ := Option.isSome_iff_exists.mp hj
      obtain ⟨n,hn,hnj,_⟩ := hl.stored j m hm
      exact ⟨n,hn,hnj⟩
    · rintro ⟨n,hn,rfl⟩
      obtain ⟨m,hm⟩ := hl.full n hn
      rw [(hl.sent m n hm).2 hn.1]
      rfl
  · rw [h.count, hm]
    rfl
  · rw [h.count, hm]
    rfl
  · rw [h.count, hm]
    rfl
  · cases hsq : s.fSqn with
    | none =>
      rw [(h.dead hsq).empty] at hj
      cases hj
    | some sqn =>
      obtain ⟨n,_,_,hn⟩ := (h.live (by rw [hsq]; rfl)).stored j m hj
      rw [hm] at hn
      cases hn

/-- Every run keeps the ring in order and frees every packet once. -/
theorem txRing_run (fSqn fTxCqn fTisn fLkey : BitVec 32) (fTxBufDMA : BitVec 64) (fTxMinInlineMode : BitVec 8) (s : State)
    (h : Reach step Free (initial fSqn fTxCqn fTisn fLkey fTxBufDMA fTxMinInlineMode) s) : s.Correct :=
  (h.invariant (inv_initial ..) (fun _ _ _ hi _ hs => step_inv hi hs)).correct

/-- A one-byte packet goes out and comes back. -/
def sentActions : List Action :=
  [.output 0 ⟨1,[7]⟩,.locked 0,.complete ⟨0,0,0⟩,.poll,.pollCqe,.pollCqe]

theorem txRing_run_onePacket : ∃ s, after step sentActions (initial 1 2 3 4 4096 0) = some s ∧
    s.freed = [0] ∧ s.Correct := by
  refine ⟨_,rfl,?_,txRing_run 1 2 3 4 4096 0 _ (reach_of_after sentActions .start rfl)⟩
  rfl

/-- One packet is posted, DESTROY_SQ succeeds and DESTROY_CQ fails. -/
def stoppedActions : List Action :=
  [.output 0 ⟨1,[7]⟩,.locked 0,.disable,.synchronize,.destroy .success,.destroy .ioError]

theorem window_outlives_mbufs : ¬ ∀ s, Reach step Free (initial 1 2 3 4 4096 0) s →
    ∀ j, (s.fWqeMbuf j).isSome = true ↔ s.InWindow j := by
  intro h
  have hj := (h _ (reach_of_after stoppedActions .start rfl) 0).mpr ⟨0,by decide,by decide⟩
  cases hj

end State
end AppleMCX.TxQueue
