import AppleMCX.Core.Cmd

/-! # Slots and entities of concurrent commands

No two calls hold the same slot. A call's entity stays in `fEntArr` from its store to its
clear exactly as long as no other call stores over an entity not yet cleared: the slot
is returned before the entry is cleared.
-/
namespace AppleMCX.Cmd
open Interaction

/-- Between `allocIdx` and `freeIdx`, for a call that takes a slot from the bitmap. -/
def ExecPc.holds : ExecPc → Bool
  | .allocEnt | .abandon | .token | .store | .allocMailbox | .submit | .wait | .quarantine | .timedOut
  | .freeMailbox _ | .release _ => true
  | _ => false

/-- Between the store into `fEntArr` and the clear. -/
def ExecPc.stored : ExecPc → Bool
  | .allocMailbox | .submit | .wait | .quarantine | .unlockPage | .timedOut | .freeMailbox _ | .release _
  | .clear _ => true
  | _ => false

/-- Between lock and unlock of `fPageLock`. -/
def ExecPc.locked : ExecPc → Bool
  | .checkPage | .allocEnt | .abandon | .token | .store | .allocMailbox | .submit | .wait | .quarantine
  | .unlockPage | .freeMailbox _ | .release _ => true
  | _ => false

def ExecPc.unstored : ExecPc → Bool
  | .allocEnt | .abandon | .token | .store => true
  | _ => false

def ExecPc.pageOnly : ExecPc → Bool
  | .lockPage | .checkPage | .unlockPage => true
  | _ => false

namespace State

def page (s : State) (i : ℕ) : Prop := (s.calls i).cmd.pageCommand = true

/-- An in-flight call that holds a slot of the bitmap. -/
def Holds (s : State) (i : ℕ) : Prop := ¬ s.page i ∧ (s.calls i).pc.holds = true

/-- What the state shared by all calls says about one of them. -/
structure CallOk (fMaxRegCmds : ℕ) (fBitmask : BitVec 32) (fPageLock pageEnt : Option ℕ) (i : ℕ) (c : Call) :
    Prop where
  pageOnly : c.pc.pageOnly = true → c.cmd.pageCommand = true
  mapped : c.pc = .allocIdx → c.cmd.pageCommand = false
  taken : c.cmd.pageCommand = false → c.pc.holds = true → fBitmask.getLsbD c.idx = false ∧ c.idx < fMaxRegCmds
  pageSlot : c.cmd.pageCommand = true → c.pc.locked = true → c.idx = fMaxRegCmds
  locked : c.cmd.pageCommand = true → c.pc.locked = true → fPageLock = some i
  unstored : c.cmd.pageCommand = true → c.pc.unstored = true → pageEnt = none

structure Slots (s : State) : Prop where
  idle : ∀ b, s.fBitmask.getLsbD b = true → b < s.fMaxRegCmds
  distinct : ∀ i j, s.Holds i → s.Holds j → (s.calls i).idx = (s.calls j).idx → i = j
  call : ∀ i, CallOk s.fMaxRegCmds s.fBitmask s.fPageLock (s.fEntArr s.fMaxRegCmds) i (s.calls i)

variable {s t : State} {i : ℕ} {c c' : Call}

theorem slots_initial (fMaxRegCmds : ℕ) : (initial fMaxRegCmds).Slots := by
  refine ⟨fun b hb => ?_,by simp [initial, Holds, ExecPc.holds],fun i => ?_⟩
  · simp only [initial, BitVec.getLsbD_ofNat, Bool.and_eq_true, decide_eq_true_eq, Nat.testBit_two_pow_sub_one] at hb
    exact hb.2
  · constructor <;> simp [initial, ExecPc.holds, ExecPc.pageOnly, ExecPc.locked, ExecPc.unstored]

theorem ExecPc.locked_of_unstored {pc : ExecPc} (h : pc.unstored = true) : pc.locked = true := by
  cases pc <;> simp_all [ExecPc.unstored, ExecPc.locked]

section CallOk
variable {m : ℕ} {bitmask : BitVec 32} {lock entry : Option ℕ}

/-- A call moves within the ranges it is in. -/
theorem CallOk.move (h : CallOk m bitmask lock entry i c) (hcmd : c'.cmd = c.cmd) (hidx : c'.idx = c.idx)
    (hpage : c'.pc.pageOnly = true → c.cmd.pageCommand = true) (hmap : c'.pc ≠ .allocIdx)
    (hholds : c'.pc.holds = true → c.pc.holds = true) (hlocked : c'.pc.locked = true → c.pc.locked = true)
    (hunstored : c'.pc.unstored = true → c.pc.unstored = true) : CallOk m bitmask lock entry i c' := by
  constructor
  · rw [hcmd]; exact hpage
  · exact fun he => absurd he hmap
  · rw [hcmd, hidx]; exact fun hp hh => h.taken hp (hholds hh)
  · rw [hcmd, hidx]; exact fun hp hl => h.pageSlot hp (hlocked hl)
  · rw [hcmd]; exact fun hp hl => h.locked hp (hlocked hl)
  · rw [hcmd]; exact fun hp hu => h.unstored hp (hunstored hu)

/-- A call outside all ranges. -/
theorem CallOk.idle (hpage : c.pc.pageOnly = false) (hmap : c.pc ≠ .allocIdx) (hholds : c.pc.holds = false)
    (hlocked : c.pc.locked = false) : CallOk m bitmask lock entry i c := by
  constructor
  · rw [hpage]; intro h; cases h
  · exact fun he => absurd he hmap
  · rw [hholds]; intro _ h; cases h
  · rw [hlocked]; intro _ h; cases h
  · rw [hlocked]; intro _ h; cases h
  · intro _ h
    rw [ExecPc.locked_of_unstored h] at hlocked
    cases hlocked

theorem CallOk.relock (h : CallOk m bitmask lock entry i c) (hlock : lock ≠ some i) (lock' entry' : Option ℕ) :
    CallOk m bitmask lock' entry' i c :=
  ⟨h.pageOnly,h.mapped,h.taken,fun hp hl => absurd (h.locked hp hl) hlock,
    fun hp hl => absurd (h.locked hp hl) hlock,fun hp hu => absurd (h.locked hp (ExecPc.locked_of_unstored hu)) hlock⟩

theorem CallOk.rebit (h : CallOk m bitmask lock entry i c) {bitmask' : BitVec 32}
    (hb : c.cmd.pageCommand = false → c.pc.holds = true → bitmask.getLsbD c.idx = false → bitmask'.getLsbD c.idx = false) :
    CallOk m bitmask' lock entry i c :=
  ⟨h.pageOnly,h.mapped,fun hp hh => ⟨hb hp hh (h.taken hp hh).1,(h.taken hp hh).2⟩,h.pageSlot,h.locked,h.unstored⟩

theorem CallOk.reentry (h : CallOk m bitmask lock entry i c) {entry' : Option ℕ}
    (he : entry = none → entry' = none) : CallOk m bitmask lock entry' i c :=
  ⟨h.pageOnly,h.mapped,h.taken,h.pageSlot,h.locked,fun hp hu => he (h.unstored hp hu)⟩

end CallOk

/-- A step of call `i` keeps the invariant if it keeps what concerns every single call, and call `i`
does not come to hold a slot of another. -/
theorem Slots.update (h : s.Slots) (hcalls : t.calls = Function.update s.calls i c')
    (hidle : ∀ b, t.fBitmask.getLsbD b = true → b < t.fMaxRegCmds)
    (hothers : ∀ j, j ≠ i → CallOk t.fMaxRegCmds t.fBitmask t.fPageLock (t.fEntArr t.fMaxRegCmds) j (s.calls j))
    (hself : CallOk t.fMaxRegCmds t.fBitmask t.fPageLock (t.fEntArr t.fMaxRegCmds) i c')
    (hnew : c'.cmd.pageCommand = false → c'.pc.holds = true →
      ∀ j, j ≠ i → s.Holds j → (s.calls j).idx ≠ c'.idx) : t.Slots := by
  have hne : ∀ j, j ≠ i → t.calls j = s.calls j := fun j hj => by rw [hcalls, Function.update_of_ne hj]
  have heq : t.calls i = c' := by rw [hcalls, Function.update_self]
  have hold : ∀ j, j ≠ i → t.Holds j → s.Holds j := fun j hj hh => by
    simpa only [Holds, page, hne j hj] using hh
  have hi : t.Holds i → c'.cmd.pageCommand = false ∧ c'.pc.holds = true := fun hh => by
    simpa [Holds, page, heq] using hh
  refine ⟨hidle,fun j k hj hk he => ?_,fun j => ?_⟩
  · by_cases hji : j = i <;> by_cases hki : k = i
    · rw [hji, hki]
    · subst hji
      rw [heq, hne k hki] at he
      exact absurd he.symm (hnew (hi hj).1 (hi hj).2 k hki (hold k hki hk))
    · subst hki
      rw [heq, hne j hji] at he
      exact absurd he (hnew (hi hk).1 (hi hk).2 j hji (hold j hji hj))
    · rw [hne j hji, hne k hki] at he
      exact h.distinct j k (hold j hji hj) (hold k hki hk) he
  · by_cases hji : j = i
    · subst hji
      rw [heq]
      exact hself
    · rw [hne j hji]
      exact hothers j hji

/-- A step of call `i` that touches nothing shared with the others. -/
theorem Slots.move (h : s.Slots) (hcalls : t.calls = Function.update s.calls i c')
    (hmax : t.fMaxRegCmds = s.fMaxRegCmds) (hbit : t.fBitmask = s.fBitmask) (hlock : t.fPageLock = s.fPageLock)
    (hent : t.fEntArr = s.fEntArr) (hcmd : c'.cmd = (s.calls i).cmd) (hidx : c'.idx = (s.calls i).idx)
    (hpage : c'.pc.pageOnly = true → (s.calls i).cmd.pageCommand = true) (hmap : c'.pc ≠ .allocIdx)
    (hholds : c'.pc.holds = true → (s.calls i).pc.holds = true)
    (hlocked : c'.pc.locked = true → (s.calls i).pc.locked = true)
    (hunstored : c'.pc.unstored = true → (s.calls i).pc.unstored = true) : t.Slots := by
  refine h.update hcalls (by rw [hbit, hmax]; exact h.idle) ?_ ?_ ?_
  · intro j _
    rw [hmax, hbit, hlock, hent]
    exact h.call j
  · rw [hmax, hbit, hlock, hent]
    exact (h.call i).move hcmd hidx hpage hmap hholds hlocked hunstored
  · intro hp hh j hj hhj he
    rw [hcmd] at hp
    rw [hidx] at he
    exact hj (h.distinct j i hhj ⟨by simpa [page] using hp,hholds hh⟩ he)

theorem idleSlot_spec {bit : ℕ} (h : s.idleSlot = some bit) : bit < 32 ∧ s.fBitmask.getLsbD bit = true :=
  ⟨List.mem_range.mp (List.mem_of_find?_eq_some h),by simpa using List.find?_some h⟩

theorem Slots.allocIdx (h : s.Slots) (hpc : (s.calls i).pc = .allocIdx) : (s.allocIdx i).Slots := by
  have hmapped := (h.call i).mapped hpc
  simp only [State.allocIdx]
  cases hs : s.idleSlot with
  | none =>
    exact h.move rfl rfl rfl rfl rfl rfl rfl (by simp [ExecPc.pageOnly]) (by simp) (by simp [ExecPc.holds])
      (by simp [ExecPc.locked]) (by simp [ExecPc.unstored])
  | some bit =>
    obtain ⟨h32,hset⟩ := idleSlot_spec hs
    have hclear : ∀ b, (s.fBitmask &&& ~~~(BitVec.twoPow 32 bit)).getLsbD b =
        (s.fBitmask.getLsbD b && !decide (b = bit)) := by
      intro b
      simp only [BitVec.getLsbD_and, BitVec.getLsbD_not, BitVec.getLsbD_twoPow]
      by_cases hb : b < 32
      · by_cases hbb : b = bit
        · simp [hbb, h32]
        · simp [hb, hbb, Ne.symm hbb]
      · rw [BitVec.getLsbD_of_ge _ _ (by omega)]
        simp
    refine h.update rfl ?_ ?_ ?_ ?_
    · intro b hb
      simp only [setCall, hclear, Bool.and_eq_true] at hb
      exact h.idle b hb.1
    · intro j _
      refine (h.call j).rebit (fun _ _ hb => ?_)
      simp only [setCall, hclear, hb, Bool.false_and]
    · refine ⟨by simp [ExecPc.pageOnly],by simp,fun _ _ => ⟨?_,h.idle bit hset⟩,?_,?_,?_⟩
      · simp [setCall, hclear]
      · intro hp; rw [hmapped] at hp; cases hp
      · intro hp; rw [hmapped] at hp; cases hp
      · intro hp; rw [hmapped] at hp; cases hp
    · intro _ _ j _ hj he
      have htaken := ((h.call j).taken (by simpa [Holds, page] using hj.1) hj.2).1
      rw [he, hset] at htaken
      cases htaken

/-- Unlocking or returning the slot, for a call that goes out of its range. -/
theorem Slots.release (h : s.Slots) (hlocked : (s.calls i).pc.locked = true) (hholds : (s.calls i).pc.holds = true)
    {pc : ExecPc} (hpage : pc.pageOnly = false) (hmap : pc ≠ .allocIdx) (hpc : pc.holds = false)
    (hpcl : pc.locked = false) : ((s.release i).goto i pc).Slots := by
  have hself : ∀ {m bitmask lock entry}, CallOk m bitmask lock entry i { s.calls i with pc := pc } :=
    CallOk.idle hpage hmap hpc hpcl
  have hnew : ∀ {x : Call}, x.pc = pc → x.cmd.pageCommand = false → x.pc.holds = true →
      ∀ j, j ≠ i → s.Holds j → (s.calls j).idx ≠ x.idx := by
    intro x hx _ hh
    rw [hx, hpc] at hh
    cases hh
  simp only [State.release]
  split
  · rename_i hp
    have hlock := (h.call i).locked hp hlocked
    refine h.update rfl h.idle (fun j hj => ?_) hself (hnew rfl)
    exact (h.call j).relock (by rw [hlock]; exact fun he => hj (Option.some.inj he).symm) none _
  · rename_i hp
    have hp : (s.calls i).cmd.pageCommand = false := by simpa using hp
    have htaken := (h.call i).taken hp hholds
    have hset : ∀ b, (s.fBitmask ||| BitVec.twoPow 32 (s.calls i).idx).getLsbD b = true →
        s.fBitmask.getLsbD b = true ∨ b = (s.calls i).idx := by
      intro b hb
      simp only [BitVec.getLsbD_or, BitVec.getLsbD_twoPow, Bool.or_eq_true, Bool.and_eq_true,
        decide_eq_true_eq] at hb
      exact hb.imp id (fun hb => hb.2.symm)
    refine h.update rfl ?_ (fun j hj => ?_) hself (hnew rfl)
    · intro b hb
      rcases hset b hb with hb | rfl
      · exact h.idle b hb
      · exact htaken.2
    · refine (h.call j).rebit (fun hpj hhj hb => ?_)
      by_contra hb'
      rcases hset _ (Bool.not_eq_false _ ▸ hb') with hb' | he
      · rw [hb] at hb'; cases hb'
      · exact hj (h.distinct j i ⟨by simpa [page] using hpj,hhj⟩ ⟨by simpa [page] using hp,hholds⟩ he)

theorem Slots.lockPage (h : s.Slots) (hpc : (s.calls i).pc = .lockPage) (hfree : s.fPageLock = none) :
    ({ s with fPageLock := some i }.setCall i { s.calls i with idx := s.fMaxRegCmds, pc := .checkPage } :
      State).Slots := by
  have hpage := (h.call i).pageOnly (by rw [hpc]; rfl)
  refine h.update rfl h.idle (fun j _ => ?_) ?_ (by simp [ExecPc.holds])
  · exact (h.call j).relock (by rw [hfree]; simp) (some i) _
  · exact ⟨fun _ => hpage,by simp,by simp [ExecPc.holds],fun _ _ => rfl,fun _ _ => rfl,by simp [ExecPc.unstored]⟩

theorem Slots.unlock (h : s.Slots) (hpage : s.page i) (hlocked : (s.calls i).pc.locked = true) {pc : ExecPc}
    (honly : pc.pageOnly = false) (hmap : pc ≠ .allocIdx) (hpcl : pc.locked = false) :
    ({ s with fPageLock := none }.goto i pc : State).Slots := by
  have hlock := (h.call i).locked hpage hlocked
  refine h.update rfl h.idle (fun j hj => ?_) ⟨by simp [honly],fun he => absurd he hmap,?_,?_,?_,?_⟩ ?_
  · exact (h.call j).relock (by rw [hlock]; exact fun he => hj (Option.some.inj he).symm) none _
  · intro hp
    rw [show (s.calls i).cmd.pageCommand = true from hpage] at hp
    cases hp
  · intro _ hl
    rw [show pc.locked = true from hl] at hpcl
    cases hpcl
  · intro _ hl
    rw [show pc.locked = true from hl] at hpcl
    cases hpcl
  · intro _ hu
    rw [ExecPc.locked_of_unstored (show pc.unstored = true from hu)] at hpcl
    cases hpcl
  · intro hp
    rw [show (s.calls i).cmd.pageCommand = true from hpage] at hp
    cases hp

theorem Slots.checked (h : s.Slots) (hpc : (s.calls i).pc = .checkPage)
    (hnone : s.fEntArr (s.calls i).idx = none) : (s.goto i .allocEnt).Slots := by
  have hpage := (h.call i).pageOnly (by rw [hpc]; rfl)
  have hlocked : (s.calls i).pc.locked = true := by rw [hpc]; rfl
  have hidx := (h.call i).pageSlot hpage hlocked
  have hno : (s.calls i).cmd.pageCommand = false → False := fun hp => by rw [hpage] at hp; cases hp
  refine h.update rfl h.idle (fun j _ => h.call j) ⟨by simp [ExecPc.pageOnly],by simp,fun hp => (hno hp).elim,
    fun _ _ => hidx,fun _ _ => (h.call i).locked hpage hlocked,fun _ _ => ?_⟩ (fun hp => (hno hp).elim)
  show s.fEntArr s.fMaxRegCmds = none
  rw [← hidx]
  exact hnone

/-- A store into `fEntArr` leaves the page slot empty for page commands that found it so. -/
theorem Slots.store (h : s.Slots) (hpc : (s.calls i).pc = .store) :
    ({ s with fEntArr := Function.update s.fEntArr (s.calls i).idx (some i) }.goto i .allocMailbox : State).Slots := by
  have hlocked : (s.calls i).pc.locked = true := by rw [hpc]; rfl
  have hholds : (s.calls i).pc.holds = true := by rw [hpc]; rfl
  refine h.update rfl h.idle (fun j hj => ?_) ?_ ?_
  · cases hp : (s.calls i).cmd.pageCommand with
    | true =>
      have hlock := (h.call i).locked hp hlocked
      exact (h.call j).relock (by rw [hlock]; exact fun he => hj (Option.some.inj he).symm) _ _
    | false =>
      have hlt := ((h.call i).taken hp hholds).2
      refine (h.call j).reentry (fun he => ?_)
      simp only [goto, setCall]
      rw [Function.update_of_ne (by omega)]
      exact he
  · have hmove := (h.call i).move (show ({ s.calls i with pc := .allocMailbox } : Call).cmd = (s.calls i).cmd from rfl)
      rfl (by simp [ExecPc.pageOnly])
      (by simp) (fun _ => hholds) (fun _ => hlocked) (by simp [ExecPc.unstored])
    exact ⟨hmove.pageOnly,hmove.mapped,hmove.taken,hmove.pageSlot,hmove.locked,by simp [ExecPc.unstored]⟩
  · intro hp _ j hj hhj he
    exact hj (h.distinct j i hhj ⟨by simpa [page] using hp,hholds⟩ he)

theorem Slots.clear (h : s.Slots) (kr : IOReturn) :
    ({ s with fEntArr := Function.update s.fEntArr (s.calls i).idx none }.goto i (.done kr) : State).Slots := by
  refine h.update rfl h.idle (fun j _ => (h.call j).reentry (fun he => ?_))
    (CallOk.idle rfl (by simp) rfl rfl) (by simp [ExecPc.holds])
  simp only [goto, setCall, Function.update_apply]
  split
  · rfl
  · exact he

theorem Slots.enter {cmd : Option CmdInOut} (h : s.Slots) (hs : s.enter i cmd = some t) : t.Slots := by
  simp only [State.enter] at hs
  split at hs
  · split at hs
    · cases hs
      exact h.move rfl rfl rfl rfl rfl rfl rfl (by simp [ExecPc.pageOnly]) (by simp) (by simp [ExecPc.holds])
        (by simp [ExecPc.locked]) (by simp [ExecPc.unstored])
    · cases hs
    · rename_i cmd _
      cases hs
      refine h.update rfl h.idle (fun j _ => h.call j) ?_ (by dsimp only; split <;> simp [ExecPc.holds])
      cases hp : cmd.pageCommand with
      | true => exact ⟨fun _ => hp,by simp,by simp [ExecPc.holds],by simp [ExecPc.locked],by simp [ExecPc.locked],
          by simp [ExecPc.unstored]⟩
      | false => exact ⟨by simp [ExecPc.pageOnly],fun _ => hp,by simp [ExecPc.holds],by simp [ExecPc.locked],
          by simp [ExecPc.locked],by simp [ExecPc.unstored]⟩
  · cases hs

theorem Slots.exec {outcome : Outcome} (h : s.Slots) (hs : s.exec i outcome = some t) : t.Slots := by
  have hmove : ∀ {pc pc' : ExecPc} {ent : Ent} {u : State}, (s.calls i).pc = pc →
      u.calls = Function.update s.calls i { s.calls i with ent := ent, pc := pc' } →
      u.fMaxRegCmds = s.fMaxRegCmds → u.fBitmask = s.fBitmask → u.fPageLock = s.fPageLock → u.fEntArr = s.fEntArr →
      (pc'.pageOnly = true → (s.calls i).cmd.pageCommand = true) → pc' ≠ .allocIdx →
      (pc'.holds = true → pc.holds = true) → (pc'.locked = true → pc.locked = true) →
      (pc'.unstored = true → pc.unstored = true) → u.Slots := by
    rintro pc pc' ent u rfl hc h₁ h₂ h₃ h₄ h₅ h₆ h₇ h₈ h₉
    exact h.move hc h₁ h₂ h₃ h₄ rfl rfl h₅ h₆ h₇ h₈ h₉
  simp only [State.exec] at hs
  split at hs <;> rename_i hpc
  · split at hs
    · rename_i hfree
      cases hs
      exact h.lockPage hpc hfree
    · cases hs
  · split at hs
    · rename_i hnone
      cases hs
      exact h.checked hpc hnone
    · cases hs
      exact h.unlock ((h.call i).pageOnly (by rw [hpc]; rfl)) (by rw [hpc]; rfl) rfl (by simp) rfl
  · cases hs
    exact h.allocIdx hpc
  · cases hs
    exact hmove hpc rfl rfl rfl rfl rfl (by simp [ExecPc.pageOnly]) (by simp) (fun _ => rfl) (fun _ => rfl) (fun _ => rfl)
  · cases hs
    exact hmove hpc rfl rfl rfl rfl rfl (by simp [ExecPc.pageOnly]) (by simp) (fun _ => rfl) (fun _ => rfl) (fun _ => rfl)
  · cases hs
    exact h.release (by rw [hpc]; rfl) (by rw [hpc]; rfl) rfl (by simp) rfl rfl
  · cases hs
    exact hmove hpc rfl rfl rfl rfl rfl (by simp [ExecPc.pageOnly]) (by simp) (fun _ => rfl) (fun _ => rfl) (fun _ => rfl)
  · cases hs
    exact h.store hpc
  · split at hs
    · cases hs
      exact hmove hpc rfl rfl rfl rfl rfl (by simp [ExecPc.pageOnly]) (by simp) (fun _ => rfl) (fun _ => rfl)
        (by simp [ExecPc.unstored])
    · cases hs
      exact hmove hpc rfl rfl rfl rfl rfl (by simp [ExecPc.pageOnly]) (by simp) (fun _ => rfl) (fun _ => rfl)
        (by simp [ExecPc.unstored])
  · split at hs
    · cases hs
    · cases hs
      exact hmove hpc rfl rfl rfl rfl rfl (by simp [ExecPc.pageOnly]) (by simp) (fun _ => rfl) (fun _ => rfl)
        (by simp [ExecPc.unstored])
  · cases hs
    exact hmove hpc rfl rfl rfl rfl rfl (by simp [ExecPc.pageOnly]) (by simp) (fun _ => rfl) (fun _ => rfl)
      (by simp [ExecPc.unstored])
  · cases hs
    exact hmove hpc rfl rfl rfl rfl rfl (by simp [ExecPc.pageOnly]) (by simp) (fun _ => rfl) (fun _ => rfl)
      (by simp [ExecPc.unstored])
  · cases hs
    exact hmove hpc rfl rfl rfl rfl rfl (by simp [ExecPc.pageOnly]) (by simp) (fun _ => rfl) (fun _ => rfl)
      (by simp [ExecPc.unstored])
  · cases hs
    exact hmove hpc rfl rfl rfl rfl rfl (by split <;> simp_all [ExecPc.pageOnly]) (by split <;> simp) (fun _ => rfl)
      (fun _ => rfl) (by split <;> simp [ExecPc.unstored])
  · cases hs
    exact h.unlock ((h.call i).pageOnly (by rw [hpc]; rfl)) (by rw [hpc]; rfl) rfl (by simp) rfl
  · cases hs
    exact hmove hpc rfl rfl rfl rfl rfl (by simp [ExecPc.pageOnly]) (by simp) (fun _ => rfl) (fun _ => rfl)
      (by simp [ExecPc.unstored])
  · cases hs
    exact h.release (by rw [hpc]; rfl) (by rw [hpc]; rfl) rfl (by simp) rfl rfl
  · cases hs
    exact h.clear _
  · cases hs

theorem step_slots {a : Action} (h : s.Slots) (hs : s.step a = some t) : t.Slots := by
  cases a with
  | enter i cmd => exact h.enter hs
  | exec i outcome => exact h.exec hs

/-! ## Entities -/

/-- Between its store and its clear, every call finds its own entity in `fEntArr`. -/
def Owned (s : State) : Prop := ∀ i, (s.calls i).pc.stored = true → s.fEntArr (s.calls i).idx = some i

/-- An entry of `fEntArr` belongs to a call that stored it there and has not cleared it. -/
def Entries (s : State) : Prop :=
  ∀ b j, s.fEntArr b = some j → (s.calls j).pc.stored = true ∧ (s.calls j).idx = b

/-- Every descriptor was built from the mailboxes and the token of the call that submitted it. -/
def SubmitsOwn (s : State) : Prop := ∀ d ∈ s.submitted, d.used = some d.own

/-- A call that took its slot from the bitmap stores its entity only over an empty entry. -/
def StoresEmpty (s : State) : Action → Prop
  | .exec i .proceed => (s.calls i).pc = .store → ¬ s.page i → s.fEntArr (s.calls i).idx = none
  | _ => True

/-- What a step of call `i` does to `fEntArr` and to its own place in it. -/
theorem step_entries {a : Action} (hs : s.step a = some t) : ∃ i c', t.calls = Function.update s.calls i c' ∧
    ((t.fEntArr = s.fEntArr ∧ ((s.calls i).pc.stored = c'.pc.stored ∧ (s.calls i).idx = c'.idx ∨
        (s.calls i).pc.stored = false ∧ c'.pc.stored = false)) ∨
      (a = .exec i .proceed ∧ (s.calls i).pc = .store ∧ c'.pc.stored = true ∧ c'.idx = (s.calls i).idx ∧
        t.fEntArr = Function.update s.fEntArr (s.calls i).idx (some i)) ∨
      ((s.calls i).pc.stored = true ∧ c'.pc.stored = false ∧
        t.fEntArr = Function.update s.fEntArr (s.calls i).idx none)) := by
  cases a with
  | enter i cmd =>
    simp only [step, enter] at hs
    split at hs
    · rename_i hpc
      have hst : (s.calls i).pc.stored = false := by rw [hpc]; rfl
      split at hs
      · cases hs
        exact ⟨i,_,rfl,Or.inl ⟨rfl,Or.inr ⟨hst,rfl⟩⟩⟩
      · cases hs
      · cases hs
        exact ⟨i,_,rfl,Or.inl ⟨rfl,Or.inr ⟨hst,by dsimp only; split <;> rfl⟩⟩⟩
    · cases hs
  | exec i outcome =>
    simp only [step, exec] at hs
    split at hs <;> rename_i hpc
    · split at hs
      · cases hs; exact ⟨i,_,rfl,Or.inl ⟨rfl,Or.inr ⟨by rw [hpc]; rfl,rfl⟩⟩⟩
      · cases hs
    · split at hs <;> cases hs <;> exact ⟨i,_,rfl,Or.inl ⟨rfl,Or.inr ⟨by rw [hpc]; rfl,rfl⟩⟩⟩
    · cases hs
      simp only [allocIdx]
      split <;> exact ⟨i,_,rfl,Or.inl ⟨rfl,Or.inr ⟨by rw [hpc]; rfl,rfl⟩⟩⟩
    · cases hs; exact ⟨i,_,rfl,Or.inl ⟨rfl,Or.inr ⟨by rw [hpc]; rfl,rfl⟩⟩⟩
    · cases hs; exact ⟨i,_,rfl,Or.inl ⟨rfl,Or.inr ⟨by rw [hpc]; rfl,rfl⟩⟩⟩
    · cases hs
      simp only [release]
      split <;> exact ⟨i,_,rfl,Or.inl ⟨rfl,Or.inr ⟨by rw [hpc]; rfl,rfl⟩⟩⟩
    · cases hs; exact ⟨i,_,rfl,Or.inl ⟨rfl,Or.inr ⟨by rw [hpc]; rfl,rfl⟩⟩⟩
    · cases hs; exact ⟨i,_,rfl,Or.inr (Or.inl ⟨rfl,hpc,rfl,rfl,rfl⟩)⟩
    · split at hs <;> cases hs <;> exact ⟨i,_,rfl,Or.inl ⟨rfl,Or.inl ⟨by rw [hpc]; rfl,rfl⟩⟩⟩
    · split at hs
      · cases hs
      · cases hs; exact ⟨i,_,rfl,Or.inl ⟨rfl,Or.inl ⟨by rw [hpc]; rfl,rfl⟩⟩⟩
    · cases hs; exact ⟨i,_,rfl,Or.inl ⟨rfl,Or.inl ⟨by rw [hpc]; rfl,rfl⟩⟩⟩
    · cases hs; exact ⟨i,_,rfl,Or.inl ⟨rfl,Or.inl ⟨by rw [hpc]; rfl,rfl⟩⟩⟩
    · cases hs; exact ⟨i,_,rfl,Or.inl ⟨rfl,Or.inl ⟨by rw [hpc]; rfl,rfl⟩⟩⟩
    · cases hs; exact ⟨i,_,rfl,Or.inl ⟨rfl,Or.inl ⟨by rw [hpc]; dsimp only; split <;> rfl,rfl⟩⟩⟩
    · cases hs; exact ⟨i,_,rfl,Or.inl ⟨rfl,Or.inl ⟨by rw [hpc]; rfl,rfl⟩⟩⟩
    · cases hs; exact ⟨i,_,rfl,Or.inl ⟨rfl,Or.inl ⟨by rw [hpc]; rfl,rfl⟩⟩⟩
    · cases hs
      simp only [release]
      split <;> exact ⟨i,_,rfl,Or.inl ⟨rfl,Or.inl ⟨by rw [hpc]; rfl,rfl⟩⟩⟩
    · cases hs; exact ⟨i,_,rfl,Or.inr (Or.inr ⟨by rw [hpc]; rfl,rfl,rfl⟩)⟩
    · cases hs

theorem step_entriesOk {a : Action} (h : s.Entries) (hs : s.step a = some t) : t.Entries := by
  obtain ⟨i,c',hcalls,hcases⟩ := step_entries hs
  intro b j hb
  have hne : j ≠ i → t.calls j = s.calls j := fun hj => by rw [hcalls, Function.update_of_ne hj]
  have heq : t.calls i = c' := by rw [hcalls, Function.update_self]
  rcases hcases with ⟨hent,hc⟩ | ⟨_,hpc,hst,hidx,hent⟩ | ⟨hst,hst',hent⟩ <;> rw [hent] at hb
  · obtain ⟨hj,hjb⟩ := h b j hb
    by_cases hji : j = i
    · subst hji
      rw [heq]
      rcases hc with ⟨hc,hx⟩ | ⟨hc,_⟩
      · exact ⟨hc ▸ hj,hx ▸ hjb⟩
      · rw [hc] at hj; cases hj
    · rw [hne hji]
      exact ⟨hj,hjb⟩
  · rw [Function.update_apply] at hb
    split at hb
    · rename_i hbi
      obtain rfl := Option.some.inj hb
      rw [heq]
      exact ⟨hst,hidx.trans hbi.symm⟩
    · obtain ⟨hj,hjb⟩ := h b j hb
      have hji : j ≠ i := by
        rintro rfl
        rw [hpc] at hj
        cases hj
      rw [hne hji]
      exact ⟨hj,hjb⟩
  · rw [Function.update_apply] at hb
    split at hb
    · cases hb
    · rename_i hbi
      obtain ⟨hj,hjb⟩ := h b j hb
      have hji : j ≠ i := by
        rintro rfl
        exact hbi hjb.symm
      rw [hne hji]
      exact ⟨hj,hjb⟩

theorem owned_initial (fMaxRegCmds : ℕ) : (initial fMaxRegCmds).Owned := fun _ h => by cases h

theorem Slots.pageStore (h : s.Slots) (hpc : (s.calls i).pc = .store) (hp : s.page i) :
    s.fEntArr (s.calls i).idx = none := by
  rw [(h.call i).pageSlot hp (by rw [hpc]; rfl)]
  exact (h.call i).unstored hp (by rw [hpc]; rfl)

theorem step_owned {a : Action} (h : s.Slots) (ho : s.Owned) (hm : StoresEmpty s a) (hs : s.step a = some t) :
    t.Owned := by
  obtain ⟨i,c',hcalls,hcases⟩ := step_entries hs
  intro j hj
  have hne : j ≠ i → t.calls j = s.calls j := fun hj => by rw [hcalls, Function.update_of_ne hj]
  have heq : t.calls i = c' := by rw [hcalls, Function.update_self]
  rcases hcases with ⟨hent,hc⟩ | ⟨rfl,hpc,_,hidx,hent⟩ | ⟨hst,hst',hent⟩ <;> rw [hent]
  · by_cases hji : j = i
    · subst hji
      rw [heq] at hj ⊢
      rcases hc with ⟨hc,hx⟩ | ⟨_,hc⟩
      · rw [← hx]
        exact ho j (hc ▸ hj)
      · rw [hc] at hj; cases hj
    · rw [hne hji] at hj ⊢
      exact ho j hj
  · have hnone : s.fEntArr (s.calls i).idx = none := by
      by_cases hp : s.page i
      · exact h.pageStore hpc hp
      · exact hm hpc hp
    by_cases hji : j = i
    · subst hji
      rw [heq, hidx, Function.update_self]
    · rw [hne hji] at hj ⊢
      have hown := ho j hj
      rw [Function.update_of_ne (fun he => by rw [he, hnone] at hown; cases hown)]
      exact hown
  · by_cases hji : j = i
    · subst hji
      rw [heq, hst'] at hj
      cases hj
    · rw [hne hji] at hj ⊢
      have hown := ho j hj
      rw [Function.update_of_ne (fun he => by rw [he, ho i hst] at hown; exact hji (Option.some.inj hown).symm)]
      exact hown

theorem step_submitted {a : Action} (hs : s.step a = some t) : t.submitted = s.submitted ∨
    ∃ i, (s.calls i).pc = .submit ∧ t.submitted =
      s.submitted ++ [⟨i,(s.calls i).ent,(s.fEntArr (s.calls i).idx).map (fun j => (s.calls j).ent)⟩] := by
  cases a with
  | enter i cmd =>
    simp only [step, enter] at hs
    split at hs
    · split at hs <;> cases hs <;> exact Or.inl rfl
    · cases hs
  | exec i outcome =>
    simp only [step, exec] at hs
    split at hs <;> rename_i hpc
    case h_11 => cases hs; exact Or.inr ⟨i,hpc,rfl⟩
    case h_3 => cases hs; simp only [allocIdx]; split <;> exact Or.inl rfl
    case h_6 | h_17 => cases hs; simp only [release]; split <;> exact Or.inl rfl
    case h_1 | h_2 | h_9 | h_10 => split at hs <;> cases hs <;> exact Or.inl rfl
    all_goals (cases hs <;> exact Or.inl rfl)

theorem step_submitsOwn {a : Action} (ho : s.Owned) (h : s.SubmitsOwn) (hs : s.step a = some t) :
    t.SubmitsOwn := by
  intro d hd
  rcases step_submitted hs with he | ⟨i,hpc,he⟩ <;> rw [he] at hd
  · exact h d hd
  · rcases List.mem_append.mp hd with hd | hd
    · exact h d hd
    · rw [List.mem_singleton.mp hd, ho i (by rw [hpc]; rfl)]
      rfl

/-- No two in-flight calls hold one slot, each call's entity is the one in its slot from store to
clear, and each descriptor was built from the caller's own entity. -/
def Integrity (s : State) : Prop :=
  (∀ i j, i ≠ j → s.Holds i → s.Holds j → (s.calls i).idx ≠ (s.calls j).idx) ∧ s.Owned ∧ s.SubmitsOwn

/-- Concurrent calls keep to their own entities in a run whose stores find the entry empty; the first
store over an entity not yet cleared breaks this. -/
theorem integrity_run (fMaxRegCmds : ℕ) :
    (∀ s, Reach step StoresEmpty (initial fMaxRegCmds) s → s.Integrity) ∧
    ∀ s a t, Reach step Free (initial fMaxRegCmds) s → step s a = some t → ¬ StoresEmpty s a → ¬ t.Integrity := by
  constructor
  · intro s hr
    have hinv := hr.invariant (J := fun s => s.Slots ∧ s.Owned ∧ s.SubmitsOwn)
      ⟨slots_initial fMaxRegCmds,owned_initial fMaxRegCmds,fun d hd => by cases hd⟩
      (fun _ _ _ h hm hs => ⟨step_slots h.1 hs,step_owned h.1 h.2.1 hm hs,step_submitsOwn h.2.1 h.2.2 hs⟩)
    exact ⟨fun i j hij hi hj he => hij (hinv.1.distinct i j hi hj he),hinv.2⟩
  · intro s a t hr hs hm ht
    have hentries := hr.invariant (J := Entries) (fun b j hb => by cases hb) (fun _ _ _ h _ hs => step_entriesOk h hs)
    cases a with
    | enter i cmd => exact hm trivial
    | exec i outcome =>
      cases outcome with
      | proceed =>
        simp only [StoresEmpty, Classical.not_imp] at hm
        obtain ⟨hpc,_,hnone⟩ := hm
        obtain ⟨j,hj⟩ := Option.ne_none_iff_exists'.mp hnone
        obtain ⟨hst,hidx⟩ := hentries _ j hj
        have hji : j ≠ i := by
          rintro rfl
          rw [hpc] at hst
          cases hst
        simp only [step, exec, hpc] at hs
        cases hs
        have hown := ht.2.1 j (by simpa [goto, setCall, hji] using hst)
        simp [goto, setCall, hji, hidx] at hown
        exact hji hown.symm
      | _ => exact hm trivial

def queryCaps : CmdInOut := ⟨.queryHcaCap,true,16,true,4112⟩

/-- Call 0 returns its slot, call 1 takes it and stores its entity, call 0 clears the entry, and
call 1 submits. -/
def clearedActions : List Action :=
  let next (i : ℕ) := Action.exec i .proceed
  [.enter 0 (some queryCaps),next 0,next 0,next 0,next 0,next 0,next 0,.exec 0 (.complete 0 0),next 0,next 0,
    .enter 1 (some queryCaps),next 1,next 1,next 1,next 1,next 1,next 0,next 1]

theorem entity_cleared : ¬ ∀ s, Reach step Free (initial 31) s → s.Integrity := by
  intro h
  have hs : ∀ d ∈ State.submitted _, d.used = some d.own := (h _ (reach_of_after clearedActions .start rfl)).2.2
  revert hs
  decide

end State
end AppleMCX.Cmd
