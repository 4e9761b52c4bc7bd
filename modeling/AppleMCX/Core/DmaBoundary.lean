import AppleMCX.Core.DriverEventQueues

/-! # The trusted DMA boundary

`cleanup` releases the objects of the device only from a state in which nothing of it can
still write to memory, whatever `start` and the runtime did before.
-/
namespace AppleMCX.PciDriver
open Interaction Prog

variable {s t : State} {log : List Event} {op : Opcode} {n : ℕ}

/-- Nothing of the device can write to memory. -/
structure Trusted (s : State) : Prop where
  eqs : eqsOf s.log = []
  teardown : Succeeded .initHca s.log → Succeeded .teardownHca s.log
  disabled : Succeeded .enableHca s.log → Succeeded .disableHca s.log
  timedOut : ∀ op n, Event.command op n .timeout ∉ s.log
  quarantined : s.fDmaQuarantined = false ∧ .enterDmaQuarantine ∉ s.log
  pages : ∀ w, s.fFwPages = some w → ∀ p ∈ w.host.fPages, ¬ FwPages.Outstanding p.ownership
  busMaster : s.fPci = true → s.log.head? = some (.readBack false)

/-- What holds where `cleanup` releases the objects. -/
structure Boundary (s : State) : Prop where
  trusted : Trusted s
  fStopping : s.fStopping = true
  noEqs : NoEqs s
  up : s.fUAR.bind Uar.fBootUar ≠ none → s.isUp = true
  pci : s.isUp = true → s.fPci = true
  isQuarantined : s.isQuarantined = false
  disabled : s.fPci = true → .disableBusMaster ∈ s.log

/-- What `gracefulBoundary` means for the state that it is computed in. -/
structure Ready (s : State) : Prop extends Tracked s where
  noEqs : NoEqs s
  notInitialized : s.fHcaInitialized = false
  notEnabled : s.fHcaEnabled = false
  notQuarantined : s.fDmaQuarantined = false ∧ s.isQuarantined = false
  noPages : s.hasOutstandingPages = false

/-! ## The last part of `cleanup` -/

/-- The bus master is off, as far as there is a device. -/
def verified (s : State) : State :=
  if s.fPci then { s with log := .readBack false :: .disableBusMaster :: s.log } else s

theorem command_verified (s : State) (kr : IOReturn) : .command op n kr ∈ (verified s).log ↔ .command op n kr ∈ s.log := by
  unfold verified
  split <;> simp

theorem succeeded_verified (s : State) : Succeeded op (verified s).log ↔ Succeeded op s.log :=
  exists_congr (fun _ => command_verified s .success)

theorem eqsOf_verified (s : State) : eqsOf (verified s).log = eqsOf s.log := by
  unfold verified
  split <;> rfl

theorem trusted_verified (h : Ready s) : Trusted { verified s with phase := .boundary } where
  eqs := (eqsOf_verified s).trans (eqs_none h.toKnown h.noEqs)
  teardown := by
    intro hs
    refine (succeeded_verified s).mpr ((h.initialized ((succeeded_verified s).mp hs)).resolve_left ?_)
    simp [h.notInitialized]
  disabled := by
    intro hs
    refine (succeeded_verified s).mpr ((h.enabled ((succeeded_verified s).mp hs)).resolve_left ?_)
    simp [h.notEnabled]
  timedOut := by
    intro op n hm
    have hq := h.timedOut op n ((command_verified s .timeout).mp hm)
    rw [h.notQuarantined.2] at hq
    cases hq
  quarantined := by
    have hlog : .enterDmaQuarantine ∉ s.log := by
      intro hm
      have hq := h.quarantined hm
      rw [h.notQuarantined.1] at hq
      cases hq
    unfold verified
    split
    · exact ⟨h.notQuarantined.1,by simp [hlog]⟩
    · exact ⟨h.notQuarantined.1,hlog⟩
  pages := by
    intro w hw p hp ho
    have hpages : s.fFwPages = some w := by
      unfold verified at hw
      split at hw <;> exact hw
    have hno := h.noPages
    simp only [State.hasOutstandingPages, hpages, Option.any_some, FwPages.State.hasOutstandingPages, List.any_eq_false,
      decide_eq_true_eq] at hno
    refine hno p hp ?_
    rcases ho with ho | ho | ho <;> simp [ho]
  busMaster := by
    intro hp
    unfold verified at hp ⊢
    split at hp <;> simp_all

theorem boundary_verified (h : Ready s) (hstop : s.fStopping = true) :
    Boundary { verified s with phase := .boundary } := by
  have htrusted := trusted_verified h
  unfold verified at htrusted ⊢
  split at htrusted
  · rename_i hp
    rw [if_pos hp]
    exact ⟨htrusted,hstop,h.noEqs,fun hu => h.up (.inr (.inr hu)),h.pci,h.notQuarantined.2,
      fun _ => List.mem_cons_of_mem _ List.mem_cons_self⟩
  · rename_i hp
    rw [if_neg hp]
    exact ⟨htrusted,hstop,h.noEqs,fun hu => h.up (.inr (.inr hu)),h.pci,h.notQuarantined.2,fun hp' => absurd hp' hp⟩

section Calculus
variable {M : State → (q : Question) → Answer q → Prop} {L : List Event → Prop} {U : Option Uar → Prop} {fuel : ℕ}

/-- A property that the log keeps from the last part of `cleanup` on, and what is known of the UARs there. -/
structure Logs (M : State → (q : Question) → Answer q → Prop) (L : List Event → Prop) (U : Option Uar → Prop) :
    Prop where
  before : ∀ log, .disableBusMaster ∉ log → L log
  disableBusMaster : ∀ log, L log → L (.disableBusMaster :: log)
  readBack : ∀ b log, L log → L (.readBack b :: log)
  crossed : ∀ s, Ready s → (s.fPci = true → M { s with log := .disableBusMaster :: s.log } .busMaster false) → U s.fUAR
  released : U none
  freeUar : ∀ s index reply, s.fUAR.bind Uar.fBootUar = some index → U s.fUAR → L s.log →
    L (effect s (.exec .freeUar index) reply).log

def Shown (L : List Event → Prop) (s : State) : Prop := L s.log ∧ (s.phase = .boundary → Boundary s)

structure Releasing (L : List Event → Prop) (U : Option Uar → Prop) (s : State) : Prop where
  fStopping : s.fStopping = true
  phase : s.phase = .releasing
  log : L s.log
  uar : U s.fUAR

/-- `cleanup` is over. -/
structure Closed (L : List Event → Prop) (s : State) : Prop where
  fStopping : s.fStopping = true
  phase : s.phase ≠ .created
  shown : Shown L s

/-- A state between two operations after the first. -/
def Rest (L : List Event → Prop) (s : State) : Prop := Tracked s ∨ Closed L s

theorem Logs.suited (hL : Logs M L U) : Suited (Shown L) :=
  fun s h => ⟨hL.before s.log h.before,fun hp => by rw [h.phase] at hp; cases hp⟩

theorem Releasing.shown (h : Releasing L U s) : Shown L s := ⟨h.log,fun hp => by rw [h.phase] at hp; cases hp⟩

theorem Releasing.closed (h : Releasing L U s) : Closed L s :=
  ⟨h.fStopping,fun hp => (by rw [h.phase] at hp; cases hp),h.shown⟩

theorem always_freeEqs (h : Releasing L U s) (hno : NoEqs s) :
    Always (env.restrict M) (Shown L) freeEqs (fun _ t => Releasing L U t) s := by
  unfold freeEqs
  simp only [bind_eq, pure_eq]
  refine always_bind.mpr ⟨h.shown,?_⟩
  beta_reduce
  split
  · exact ⟨h.shown,h⟩
  · rename_i eq heq
    have hshutdown : Always (env.restrict M) (Shown L) (shutdown eq) (fun _ t => t = s) s := by
      unfold shutdown
      simp only [bind_eq, pure_eq]
      refine always_bind.mpr ⟨h.shown,always_ite.mpr ⟨fun _ => ?_,fun _ => ⟨h.shown,rfl⟩⟩⟩
      exact always_destroyEqs_none h.shown hno eq.ids true
    refine Always.bind hshutdown ?_
    rintro _ t - rfl
    have ht : Releasing L U { t with fEQ := none } := ⟨h.fStopping,h.phase,h.log,h.uar⟩
    exact ⟨h.shown,ht.shown,ht⟩

theorem always_freeUars (hL : Logs M L U) (h : Releasing L U s) :
    Always (env.restrict M) (Shown L) freeUars (fun _ t => Releasing L U t) s := by
  have hnone : ∀ u, Releasing L U u → Always (env.restrict M) (Shown L) (update (fun s => { s with fUAR := none }))
      (fun _ t => Releasing L U t) u := by
    intro u hu
    have ht : Releasing L U { u with fUAR := none } := ⟨hu.fStopping,hu.phase,hu.log,hL.released⟩
    exact ⟨hu.shown,ht.shown,ht⟩
  unfold freeUars
  simp only [bind_eq]
  refine always_bind.mpr ⟨h.shown,?_⟩
  beta_reduce
  split
  · exact hnone s h
  · rename_i index hu
    have hexec : Always (env.restrict M) (Shown L) (exec .freeUar index) (fun _ t => Releasing L U t) s := by
      unfold exec
      simp only [bind_eq, pure_eq]
      refine always_bind.mpr ⟨h.shown,always_ite.mpr ⟨fun _ => ⟨h.shown,h⟩,fun _ => ⟨h.shown,fun reply _ => ?_⟩⟩⟩
      have hlog := hL.freeUar s index reply hu h.uar h.log
      have ht : Releasing L U (effect s (.exec .freeUar index) reply) := by
        rw [effect_exec] at hlog ⊢
        split at hlog
        · rename_i hsub
          rw [if_pos hsub]
          exact ⟨h.fStopping,h.phase,hlog,h.uar⟩
        · rename_i hsub
          rw [if_neg hsub]
          exact h
      exact ⟨ht.shown,ht⟩
    exact Always.bind hexec (fun _ t _ ht => hnone t ht)

theorem always_releaseObjects (hL : Logs M L U) (hb : Boundary s) (hshown : Shown L s) (huar : U s.fUAR) :
    Always (env.restrict M) (Shown L) releaseObjects (fun _ t => Closed L t) s := by
  have h₁ : Releasing L U { s with phase := .releasing, fFwPages := none } := ⟨hb.fStopping,rfl,hshown.1,huar⟩
  have h₂ : Releasing L U { s with phase := .releasing, fFwPages := none, fDMA := false } :=
    ⟨hb.fStopping,rfl,hshown.1,huar⟩
  have hno : NoEqs { s with phase := .releasing, fFwPages := none, fDMA := false } := by
    intro slot e he
    exact hb.noEqs slot e (by cases slot <;> exact he)
  unfold releaseObjects
  simp only [bind_eq]
  refine always_modify_bind.mpr ⟨hshown,always_modify_bind.mpr ⟨h₁.shown,?_⟩⟩
  refine Always.bind (always_freeEqs h₂ hno) (fun _ t _ ht => Always.bind (always_freeUars hL ht) (fun _ u _ hu => ?_))
  have hlast : Releasing L U { u with fCmd := none, fHCA := false, fBar0Map := false, fPci := false } :=
    ⟨hu.fStopping,hu.phase,hu.log,hu.uar⟩
  exact ⟨hu.shown,hlast.shown,hlast.closed⟩

theorem always_crossBoundary (hL : Logs M L U) (h : Tracked s) (hstop : s.fStopping = true) {graceful : Bool}
    (hready : graceful = true → Ready s) :
    Always (env.restrict M) (Shown L) (crossBoundary graceful) (fun _ t => Closed L t) s := by
  have hclosed : ∀ log, L log → Closed L { s with log := log } := by
    intro log hlog
    refine ⟨hstop,fun hp => ?_,hlog,fun hp => ?_⟩
    · cases hp.symm.trans h.phase
    · cases hp.symm.trans h.phase
  have hlog := hL.before s.log h.before
  have hoff := hL.disableBusMaster s.log hlog
  have hverify : Always (env.restrict M) (Shown L) disableBusMasterAndVerify
      (fun ok t => Closed L t ∧ (ok = true → t = verified s ∧
        (s.fPci = true → M { s with log := .disableBusMaster :: s.log } .busMaster false))) s := by
    unfold disableBusMasterAndVerify
    simp only [bind_eq, pure_eq]
    refine always_bind.mpr ⟨(hclosed s.log hlog).shown,always_ite.mpr ⟨fun hp => ?_,fun hp => ?_⟩⟩
    · exact ⟨(hclosed s.log hlog).shown,hclosed s.log hlog,fun _ => ⟨by simp_all [verified],fun hpci => by simp_all⟩⟩
    · refine always_modify_bind.mpr ⟨(hclosed s.log hlog).shown,always_query_bind.mpr
        ⟨(hclosed _ hoff).shown,fun b ha => ?_⟩⟩
      have hread := hclosed _ (hL.readBack b _ hoff)
      refine ⟨hread.shown,hread,fun hb => ?_⟩
      have hfalse : b = false := by simpa using hb
      have hpci : s.fPci = true := by simpa using hp
      subst hfalse
      exact ⟨by simp [verified, hpci, Env.restrict, env, effect],fun _ => ha.2⟩
  unfold crossBoundary
  simp only [bind_eq, pure_eq]
  refine Always.bind hverify ?_
  rintro ok t hIt ⟨ht,hok⟩
  refine always_ite.mpr ⟨fun _ => ⟨hIt,ht⟩,fun hv => always_ite.mpr ⟨fun _ => ⟨hIt,ht⟩,fun hg => ?_⟩⟩
  obtain ⟨rfl,hmet⟩ := hok (by simpa using hv)
  have hb := boundary_verified (hready (by simpa using hg)) hstop
  have hshown : Shown L { verified s with phase := .boundary } := ⟨hIt.1,fun _ => hb⟩
  have huar : U (verified s).fUAR := by
    have hcrossed := hL.crossed s (hready (by simpa using hg)) hmet
    unfold verified
    split <;> exact hcrossed
  exact always_modify_bind.mpr ⟨hIt,always_releaseObjects hL hb hshown huar⟩

/-! ## `cleanup` -/

theorem Tracked.quarantineDma (h : Tracked s) : Tracked (quarantineDma s) :=
  ⟨⟨⟨h.phase,h.before⟩,h.timedOut,fun _ => rfl,h.pci,h.eqs⟩,h.initialized,h.enabled,h.up⟩

theorem quarantineDma_frame (s : State) : Frame s (quarantineDma s) := ⟨rfl,rfl,rfl,rfl,rfl,id,id,fun _ => rfl⟩

theorem Tracked.tornDown (h : Tracked s) (hup : s.isUp = true) :
    Tracked { s.submitted .teardownHca n .success with fHcaInitialized := false } where
  toKnown := (h.toKnown.submitted .success (fun _ => by decide) hup).flags s.fHcaEnabled false
  initialized := fun _ => .inr ⟨n,List.mem_cons_self⟩
  enabled := fun hs => (h.enabled (succeeded_cons (fun _ => by decide) hs)).imp id (fun hd => hd.cons _)
  up := fun _ => (submitted_isUp .teardownHca n .success).trans hup

theorem Tracked.disabledHca (h : Tracked s) (hup : s.isUp = true) :
    Tracked { s.submitted .disableHca n .success with fHcaEnabled := false } where
  toKnown := (h.toKnown.submitted .success (fun _ => by decide) hup).flags false s.fHcaInitialized
  initialized := fun hs => (h.initialized (succeeded_cons (fun _ => by decide) hs)).imp id (fun ht => ht.cons _)
  enabled := fun _ => .inr ⟨n,List.mem_cons_self⟩
  up := fun _ => (submitted_isUp .disableHca n .success).trans hup

/-- A command that takes a flag back, with the quarantine where it fails. -/
theorem always_execOk_flag {f : State → State} {op : Opcode} (hL : Logs M L U) (h : Tracked s) (hne : op ≠ .createEq)
    (hf : s.isUp = true → Tracked (f (s.submitted op 0 .success)) ∧ Frame s (f (s.submitted op 0 .success))) :
    Always (env.restrict M) (Shown L) (execOk op 0) (fun ok t => Tracked ((if ok then f else quarantineDma) t) ∧
      Frame s ((if ok then f else quarantineDma) t)) s := by
  refine (execOk_spec hL.suited h hne).mono (fun ok t _ ht => ?_)
  cases ok with
  | false =>
    obtain ⟨ht,hframe⟩ := ht.1 rfl
    exact ⟨ht.quarantineDma,hframe.trans (quarantineDma_frame t)⟩
  | true =>
    obtain ⟨hup,rfl⟩ := ht.2 rfl
    exact hf hup

theorem always_teardown (hL : Logs M L U) (h : Tracked s) : Always (env.restrict M) (Shown L) teardown
    (fun ok t => Tracked t ∧ Frame s t ∧ (ok = true → t.fHcaInitialized = false)) s := by
  unfold teardown
  simp only [bind_eq, pure_eq]
  refine always_bind.mpr ⟨hL.suited s h.toBefore,always_ite.mpr ⟨fun _ => ?_,fun hc => ?_⟩⟩
  · have hexec := always_execOk_flag (f := fun s => { s with fHcaInitialized := false }) hL h
      (by decide : Opcode.teardownHca ≠ .createEq)
        (fun hup => ⟨h.tornDown hup,rfl,rfl,rfl,submitted_isUp .teardownHca 0 .success,
        rfl,fun _ => rfl,id,id⟩)
    refine Always.bind hexec (fun ok t hIt ht => ⟨hIt,hL.suited _ ht.1.toBefore,ht.1,ht.2,fun hok => ?_⟩)
    rw [if_pos hok]
  · refine ⟨hL.suited s h.toBefore,h,Frame.refl s,fun _ => ?_⟩
    cases hi : s.fHcaInitialized with
    | false => rfl
    | true => exact absurd ⟨hi,h.up (.inl hi)⟩ hc

theorem always_disable (hL : Logs M L U) (h : Tracked s) : Always (env.restrict M) (Shown L) disable
    (fun _ t => Tracked t ∧ Frame s t ∧ (t.fDmaQuarantined = false → t.fHcaEnabled = false)) s := by
  unfold disable
  simp only [bind_eq, pure_eq]
  refine always_bind.mpr ⟨hL.suited s h.toBefore,always_ite.mpr ⟨fun _ => ?_,fun hc => ?_⟩⟩
  · have hexec := always_execOk_flag (f := fun s => { s with fHcaEnabled := false }) hL h
      (by decide : Opcode.disableHca ≠ .createEq)
        (fun hup => ⟨h.disabledHca hup,rfl,rfl,rfl,submitted_isUp .disableHca 0 .success,
        rfl,id,fun _ => rfl,id⟩)
    refine Always.bind hexec (fun ok t hIt ht => ⟨hIt,hL.suited _ ht.1.toBefore,ht.1,ht.2,fun hq => ?_⟩)
    cases ok with
    | false => cases hq
    | true => rfl
  · refine ⟨hL.suited s h.toBefore,h,Frame.refl s,fun _ => ?_⟩
    cases he : s.fHcaEnabled with
    | false => rfl
    | true => exact absurd ⟨he,h.up (.inr (.inl he))⟩ hc

theorem quiet_reclaim (hL : Logs M L U) (fuel : ℕ) (teardownOk : Bool) :
    Quiet M (Shown L) (reclaim fuel teardownOk) := by
  refine quiet_get (fun _ => quiet_ite ((quiet_onPages hL.suited _).bind (fun result => ?_)) (quiet_done hL.suited true))
  cases result with
  | none => exact quiet_done hL.suited false
  | some kr =>
    refine Quiet.bind (fun s h => ?_) (fun _ => quiet_done hL.suited true)
    have hq := h.quarantineDma
    split
    · exact ⟨hL.suited s h.toBefore,hL.suited s h.toBefore,h,Frame.refl s⟩
    · exact ⟨hL.suited s h.toBefore,hL.suited _ hq.toBefore,hq,quarantineDma_frame s⟩

theorem NoEqs.frame (h : NoEqs s) (hframe : Frame s t) : NoEqs t := by
  intro slot e he
  exact h slot e (by cases slot <;> simpa only [State.entry, hframe.fEQ] using he)

theorem always_cleanup (hL : Logs M L U) (fuel : ℕ) (h : Tracked s) :
    Always (env.restrict M) (Shown L) (cleanup fuel) (fun _ t => Rest L t) s := by
  have hs₁ : Tracked { s with fStopping := true, fHealth := false } :=
    ⟨⟨⟨h.phase,h.before⟩,h.timedOut,h.quarantined,h.pci,h.eqs⟩,h.initialized,h.enabled,h.up⟩
  have hI := hL.suited
  unfold cleanup
  simp only [bind_eq, pure_eq]
  refine always_bind.mpr ⟨hI s h.toBefore,always_ite.mpr ⟨fun _ => ⟨hI s h.toBefore,.inl h⟩,fun _ => ?_⟩⟩
  refine always_modify_bind.mpr ⟨hI s h.toBefore,Always.bind (quiet_stopPages hI _ hs₁) ?_⟩
  rintro _ t₁ - ⟨h₁,hframe₁⟩
  refine Always.bind (always_shutdownEqs hI h₁) ?_
  rintro eqDestroyed t₂ - ⟨h₂,hstop₂,hno₂⟩
  refine Always.bind (always_teardown hL h₂) ?_
  rintro teardownOk t₃ - ⟨h₃,hframe₃,hinit₃⟩
  refine Always.bind (quiet_reclaim hL fuel teardownOk t₃ h₃) ?_
  rintro reclaimed t₄ hI₄ ⟨h₄,hframe₄⟩
  refine always_ite.mpr ⟨fun _ => ⟨hI₄,.inl h₄⟩,fun _ => ?_⟩
  refine Always.bind (always_disable hL h₄) ?_
  rintro _ t₅ hI₅ ⟨h₅,hframe₅,henabled⟩
  refine always_bind.mpr ⟨hI₅,?_⟩
  have hframe := (hframe₃.trans hframe₄).trans hframe₅
  have hstop : t₅.fStopping = true := (hframe.fStopping.trans hstop₂).trans hframe₁.fStopping
  refine (always_crossBoundary hL h₅ hstop (fun hg => ?_)).mono (fun _ _ _ hc => .inr hc)
  simp only [State.gracefulBoundary, decide_eq_true_eq, Bool.not_eq_true'] at hg
  obtain ⟨heq,htear,hdma,hquar,hpages⟩ := hg
  exact ⟨h₅,(hno₂ heq).frame hframe,hframe₅.initialized (hframe₄.initialized (hinit₃ htear)),
    henabled hdma,⟨hdma,hquar⟩,hpages⟩

/-! ## `start` -/

structure Blank (s : State) : Prop where
  phase : s.phase = .running
  log : s.log = []
  fEQ : s.fEQ = none
  fUAR : s.fUAR = none
  notInitialized : s.fHcaInitialized = false
  notEnabled : s.fHcaEnabled = false

/-- The command interface comes up only where there is a device. -/
theorem Blank.tracked (h : Blank s) (hpci : s.isUp = true → s.fPci = true) : Tracked s where
  phase := h.phase
  before := by simp [h.log]
  timedOut := by simp [h.log]
  quarantined := by simp [h.log]
  pci := hpci
  eqs := by simp [h.log, eqsOf]
  initialized := by simp [h.log, Succeeded]
  enabled := by simp [h.log, Succeeded]
  up := by simp [h.fUAR, h.notInitialized, h.notEnabled]

/-- The rest of `start`, from the states with a property. -/
def Starts (M : State → (q : Question) → Answer q → Prop) (L : List Event → Prop)
    (P : State → Prop) (p : Driver Bool) : Prop :=
  ∀ s, Tracked s → P s → Always (env.restrict M) (Shown L) p (fun _ t => Rest L t) s

variable {P Q : State → Prop} {rest exit : Driver Bool}

theorem starts_done (hL : Logs M L U) (b : Bool) : Starts M L P (.done b) :=
  fun s h _ => ⟨hL.suited s h.toBefore,.inl h⟩

theorem starts_giveUp (hL : Logs M L U) (fuel : ℕ) : Starts M L (fun _ => True) (giveUp fuel) :=
  fun _ h _ => Always.bind (always_cleanup hL fuel h) (fun _ _ hI hr => ⟨hI,hr⟩)

theorem quiet_runtime (hL : Logs M L U) : Quiet M (Shown L) runtime := by
  have hI := hL.suited
  refine (quiet_query hI (fun _ _ => rfl)).bind (fun requests => (quiet_workerMain hI requests).bind (fun _ => ?_))
  exact (quiet_query hI (fun _ _ => rfl)).bind (fun _ => quiet_ite (quiet_enterDmaQuarantine hI) (quiet_done hI ()))

theorem starts_giveUpRunning (hL : Logs M L U) (fuel : ℕ) : Starts M L (fun _ => True) (giveUpRunning fuel) :=
  fun s h _ => Always.bind (quiet_runtime hL s h) (fun _ t _ ht => starts_giveUp hL fuel t ht.1 trivial)

theorem starts_orExit (hexit : Starts M L (fun _ => True) exit) {p : Driver Bool}
    (hp : ∀ s, Tracked s → P s → Always (env.restrict M) (Shown L) p (fun ok t => Tracked t ∧ (ok = true → Q t)) s)
    (hrest : Starts M L Q rest) : Starts M L P (p.bind (fun ok => if !ok then exit else rest)) := by
  intro s h hP
  refine Always.bind (hp s h hP) ?_
  rintro ok t - ⟨ht,hok⟩
  exact always_ite.mpr ⟨fun _ => hexit t ht trivial,fun hk => hrest t ht (hok (by simpa using hk))⟩

theorem starts_succeeds (hL : Logs M L U) (hexit : Starts M L (fun _ => True) exit) (hrest : Starts M L P rest) :
    Starts M L P (succeeds.bind (fun ok => if !ok then exit else rest)) :=
  starts_orExit hexit (fun s h hP => ⟨hL.suited s h.toBefore,fun _ _ => ⟨hL.suited s h.toBefore,h,fun _ => hP⟩⟩) hrest

theorem starts_update (hL : Logs M L U) {f : State → State} (hf : ∀ s, Tracked s → P s → Tracked (f s) ∧ Q (f s))
    (hrest : Starts M L Q rest) : Starts M L P ((update f).bind (fun _ => rest)) := by
  intro s h hP
  obtain ⟨ht,hQ⟩ := hf s h hP
  exact always_modify_bind.mpr ⟨hL.suited s h.toBefore,hrest _ ht hQ⟩

theorem starts_allocInit (hL : Logs M L U) (hexit : Starts M L (fun _ => True) exit) {store initialized : State → State}
    (hstore : ∀ s, Tracked s → P s → Tracked (store s))
    (hinit : ∀ s, Tracked s → P s → Tracked (initialized (store s)) ∧ Q (initialized (store s)))
    (hrest : Starts M L Q rest) :
    Starts M L P ((allocInit store initialized).bind (fun ok => if !ok then exit else rest)) := by
  refine starts_orExit hexit (fun s h hP => ?_) hrest
  have hst := hstore s h hP
  obtain ⟨hin,hQ⟩ := hinit s h hP
  refine always_allocInit ⟨hL.suited s h.toBefore,h,?_⟩ ⟨hL.suited _ hst.toBefore,hst,?_⟩
    ⟨hL.suited _ hin.toBefore,hin,fun _ => hQ⟩
  · exact fun hf => by cases hf
  · exact fun hf => by cases hf

theorem starts_keeps (hexit : Starts M L (fun _ => True) exit) {p : Driver Bool} (hp : Keeps M (Shown L) p)
    (hrest : Starts M L (fun s => s.fEQ = none) rest) :
    Starts M L (fun s => s.fEQ = none) (p.bind (fun ok => if !ok then exit else rest)) :=
  starts_orExit hexit (fun s h hP => (hp s h).mono (fun _ _ _ ht => ⟨ht.1,fun _ => ht.2.trans hP⟩)) hrest

theorem Tracked.newUar (h : Tracked s) : Tracked { s with fUAR := some ⟨none,false⟩ } :=
  ⟨⟨⟨h.phase,h.before⟩,h.timedOut,h.quarantined,h.pci,h.eqs⟩,h.initialized,h.enabled,
    fun hf => h.up (hf.imp id (Or.imp id (fun hne => absurd rfl hne)))⟩

theorem Blank.set (h : Blank s) (fPci fBar0Map fHCA : Bool) (fCmd : Option Cmd) :
    Blank { s with
      fPci := fPci
      fBar0Map := fBar0Map
      fHCA := fHCA
      fCmd := fCmd } :=
  ⟨h.phase,h.log,h.fEQ,h.fUAR,h.notInitialized,h.notEnabled⟩

theorem always_start (hL : Logs M L U) (fuel : ℕ) :
    Always (env.restrict M) (Shown L) (start fuel) (fun _ t => Rest L t) initial := by
  have hI := hL.suited
  have hout := starts_giveUp hL fuel
  have hlate := starts_giveUpRunning hL fuel
  have h₀ : Blank { initial with phase := .running } := ⟨rfl,rfl,rfl,rfl,rfl,rfl⟩
  have h₁ : Blank { initial with phase := .running, fPci := true } := ⟨rfl,rfl,rfl,rfl,rfl,rfl⟩
  have ht₀ := h₀.tracked (fun hf => by cases hf)
  have ht₁ := h₁.tracked (fun _ => rfl)
  have hinitial : Shown L initial := ⟨hL.before [] (by simp),fun hp => by cases hp⟩
  unfold start
  simp only [bind_eq, pure_eq]
  refine always_modify_bind.mpr ⟨hinitial,always_query_bind.mpr ⟨hI _ ht₀.toBefore,fun isPci _ => ?_⟩⟩
  refine always_ite.mpr ⟨fun _ => ⟨hI _ ht₀.toBefore,.inl ht₀⟩,fun _ => always_modify_bind.mpr
    ⟨hI _ ht₀.toBefore,?_⟩⟩
  refine (?_ : Starts M L (fun s => Blank s ∧ s.fPci = true) _) _ ht₁ ⟨h₁,rfl⟩
  -- the mappings and the command interface, over a log that is still empty
  have hset : ∀ s : State, Blank s ∧ s.fPci = true → ∀ fBar0Map fHCA fCmd,
      Blank { s with fBar0Map := fBar0Map, fHCA := fHCA, fCmd := fCmd } ∧ s.fPci = true :=
    fun s h fBar0Map fHCA fCmd => ⟨h.1.set s.fPci fBar0Map fHCA fCmd,h.2⟩
  refine starts_succeeds hL hout (starts_update (Q := fun s => Blank s ∧ s.fPci = true) hL (fun s h hb => ?_) ?_)
  · exact ⟨(hset s hb true s.fHCA s.fCmd).1.tracked h.pci,hset s hb true s.fHCA s.fCmd⟩
  refine starts_succeeds hL hout (starts_update (Q := fun s => Blank s ∧ s.fPci = true) hL (fun s h hb => ?_) ?_)
  · exact ⟨(hset s hb s.fBar0Map true s.fCmd).1.tracked h.pci,hset s hb s.fBar0Map true s.fCmd⟩
  refine starts_allocInit (Q := fun s => s.fEQ = none) hL hout (fun s h hb => ?_) (fun s h hb => ?_) ?_
  · exact (hset s hb s.fBar0Map s.fHCA (some ⟨false,false⟩)).1.tracked (fun _ => hb.2)
  · exact ⟨(hset s hb s.fBar0Map s.fHCA (some ⟨true,false⟩)).1.tracked (fun _ => hb.2),hb.1.fEQ⟩
  -- the firmware, the UARs and the event queues
  refine starts_succeeds hL hout (starts_update (Q := fun s => s.fEQ = none) hL (fun s h hnone => ⟨h.beside rfl,hnone⟩) ?_)
  refine starts_keeps hout (keeps_fwInit hI) ?_
  refine starts_allocInit (Q := fun s => s.fEQ = none) hL hout (fun s h _ => h.newUar) (fun s h hnone => ⟨h.newUar,hnone⟩) ?_
  refine starts_keeps hout (keeps_allocUar hI) (starts_keeps hout (keeps_allocDbRecord hI) (starts_succeeds hL hout ?_))
  refine starts_orExit (Q := fun _ => True) hout (fun s h hnone => ?_) ?_
  · exact (always_startEqs hI h hnone).mono (fun _ _ _ ht => ⟨ht,fun _ => trivial⟩)
  -- the interrupts, the health timer and the DMA helper
  refine starts_update (Q := fun _ => True) hL (fun s h _ => ⟨h.beside rfl,trivial⟩) (starts_succeeds hL hlate ?_)
  refine starts_allocInit (Q := fun _ => True) hL hlate (fun s h _ => h.beside rfl) (fun s h _ => ⟨h.beside rfl,trivial⟩) ?_
  refine starts_succeeds hL hlate (starts_allocInit (Q := fun _ => True)
    hL hlate (fun s h _ => h.beside rfl) (fun s h _ => ⟨h.beside rfl,trivial⟩) ?_)
  exact starts_done hL true

/-! ## Every run -/

theorem always_operation (hL : Logs M L U) (o : Operation) (h : s = initial ∨ Rest L s) (he : o.Enabled s) :
    Always (env.restrict M) (Shown L) o.run (fun _ t => t = initial ∨ Rest L t) s := by
  have hI := hL.suited
  have hrunning : s.phase = .running → s.fStopping = false → Tracked s := by
    intro hphase hstop
    rcases h with rfl | ht | hc
    · cases hphase
    · exact ht
    · cases hstop.symm.trans hc.fStopping
  have hquiet : ∀ p : Driver Unit, Quiet M (Shown L) p → Tracked s →
      Always (env.restrict M) (Shown L) p (fun _ t => t = initial ∨ Rest L t) s :=
    fun p hp ht => (hp s ht).mono (fun _ _ _ hu => .inr (.inl hu.1))
  cases o with
  | start fuel =>
    rcases h with rfl | ht | hc
    · exact Always.bind (always_start hL fuel) (fun _ _ hIt hr => ⟨hIt,.inr hr⟩)
    · cases he.symm.trans ht.phase
    · exact absurd he hc.phase
  | enterDmaQuarantine => exact hquiet _ (quiet_enterDmaQuarantine hI) (hrunning he.1 he.2)
  | clientCommand op number =>
    have hop : Harmless op := by
      have hown := he.2.2
      refine ⟨?_,?_,?_⟩ <;> rintro rfl <;> simp [ownCommand] at hown
    exact hquiet _ ((quiet_exec hI hop).bind (fun _ => quiet_done hI ())) (hrunning he.1 he.2.1)
  | pageRequests requests => exact hquiet _ (quiet_workerMain hI requests) (hrunning he.1 he.2.1)
  | cleanup fuel =>
    rcases h with rfl | ht | hc
    · exact absurd rfl he
    · exact (always_cleanup hL fuel ht).mono (fun _ _ _ hr => .inr hr)
    · show Always (env.restrict M) (Shown L) (cleanup fuel) _ s
      unfold cleanup
      simp only [bind_eq, pure_eq]
      refine always_bind.mpr ⟨hc.shown,always_ite.mpr
        ⟨fun _ => ⟨hc.shown,.inr (.inr hc)⟩,fun hn => absurd hc.fStopping hn⟩⟩

/-- Every state that the driver passes through. -/
theorem shown_run (hL : Logs M L U) (h : Passes (env.restrict M) Operation.run Operation.Enabled initial s) :
    Shown L s := by
  refine Passes.invariant (J := fun s => s = initial ∨ Rest L s) (.inl rfl) ?_ (fun o s hs he => always_operation hL o hs he) h
  rintro s (rfl | ht | hc)
  · exact ⟨hL.before [] (by simp),fun hp => by cases hp⟩
  · exact hL.suited s ht.toBefore
  · exact hc.shown

end Calculus

theorem restrict_free : env.restrict (fun _ _ _ => True) = env := by
  simp [Env.restrict, env]

theorem boundary_run (h : Passes env Operation.run Operation.Enabled initial s) (hs : s.phase = .boundary) :
    Boundary s := by
  rw [← restrict_free] at h
  have hL : Logs (fun _ _ _ => True) (fun _ => True) (fun _ => True) :=
    ⟨fun _ _ => trivial,fun _ _ => trivial,fun _ _ _ => trivial,fun _ _ _ => trivial,trivial,fun _ _ _ _ _ _ => trivial⟩
  exact (shown_run hL h).2 hs

/-- Where `cleanup` releases the objects, nothing of the device can write to memory. -/
theorem trusted_boundary (s : State) (h : Passes env Operation.run Operation.Enabled initial s) (hs : s.phase = .boundary) :
    Trusted s :=
  (boundary_run h hs).trusted

def pageAnswers : (q : FwPages.Question) → FwPages.Answer q
  | .allocate => true
  | .setMemoryDescriptor => IOReturn.success
  | .gen64IOVMSegments => (⟨.success,1,4096,4096⟩ : FwPages.Segment)
  | .queryPages phase embedded => (⟨.success,0,embedded,if phase = .boot then 1 else 0⟩ : FwPages.QueryReply)
  | .give _ _ _ => IOReturn.success
  | .take _ _ requested => (⟨.success,requested,fun _ => 4096,fun _ => false⟩ : FwPages.TakeReply)
  | .allocationFail _ _ => IOReturn.success

/-- Everything succeeds; the number of an object is the number of the question that made it. -/
def answers (i : ℕ) : (q : Question) → Answer q
  | .succeeds => true
  | .initializing => false
  | .exec _ _ => (⟨.success,i,true⟩ : Reply)
  | .pages q => pageAnswers q
  | .pageRequests => []
  | .quarantine => false
  | .busMaster => false

theorem answers_allowed (i : ℕ) (q : Question) (s : State) : env.Allowed s q (answers i q) := by
  cases q <;> simp [env, allowed, answers]

def after (o : Operation) (s : State) : State := (o.run.run env answers 0 s).2

theorem after_settled (o : Operation) (h : Settled env Operation.run Operation.Enabled initial s) (he : o.Enabled s) :
    Settled env Operation.run Operation.Enabled initial (after o s) :=
  h.next he (run_returns answers answers_allowed o.run 0 s)

def started : State := after (.start 0) initial

theorem started_settled : Settled env Operation.run Operation.Enabled initial started :=
  after_settled (.start 0) .start rfl

/-- The state of `cleanup` where it releases the objects after that. -/
def atBoundary : State :=
  (((Operation.cleanup 5).run.trail env answers 0 started).find? (fun s => s.phase = .boundary)).getD initial

theorem atBoundary_passes : Passes env Operation.run Operation.Enabled initial atBoundary := by
  have hfind : ((Operation.cleanup 5).run.trail env answers 0 started).find?
    (fun s => s.phase = .boundary) = some atBoundary := by
    decide +kernel
  have hmem := List.mem_of_find?_eq_some hfind
  have henabled : started.phase ≠ .created := by decide +kernel
  exact .inr ⟨started,.cleanup 5,started_settled,henabled,trail_visits answers answers_allowed _ 0 started _ hmem⟩

/-- The HCA was initialized, and it was given a page and four event queues. -/
theorem trusted_boundary_afterStart : started.isUp = true ∧ (eqsOf started.log).length = 4 ∧ Trusted atBoundary :=
  ⟨by decide +kernel,by decide +kernel,trusted_boundary atBoundary atBoundary_passes (by decide +kernel)⟩

end AppleMCX.PciDriver
