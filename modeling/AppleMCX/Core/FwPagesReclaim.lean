import AppleMCX.Core.FwPagesTake
import Mathlib.Data.BitVec

/-! # Reclaiming pages

The two loops that take pages back until none is left: `reclaimAll` before teardown, and
the TAKE loop of `processRequest`. Both end against firmware that may reply anything.
-/
namespace AppleMCX.FwPages
open Interaction

variable {functionId : ℕ} {embedded : Bool} {requested : ℕ}

theorem State.take_length {s : State} (hs : (s.fPages.map (·.record)).Nodup) (reply : TakeReply) :
    ((s.take functionId embedded requested reply).2.fPages.map (·.record)).Nodup ∧
    (s.take functionId embedded requested reply).2.fPages.length + (s.take functionId embedded requested reply).1.2 =
      s.fPages.length ∧
    (s.take functionId embedded requested reply).1.2 ≤ requested ∧
    ((s.take functionId embedded requested reply).1.1 ≠ .success → (s.take functionId embedded requested reply).1.2 = 0) := by
  by_cases hbad : Unsettled functionId embedded requested s reply
  · obtain ⟨_,hnone,hmarked⟩ := State.take_unsettled hs hbad
    rw [hnone, hmarked]
    refine ⟨?_,by simp [State.setFatal, State.markFunctionAmbiguous],Nat.zero_le _,fun _ => rfl⟩
    exact (congrArg List.Nodup (markFunctionAmbiguous_records functionId embedded s)).mpr hs
  · by_cases hk : reply.kr = .success
    · have hwell : WellFormed functionId embedded requested s reply := by
        by_contra hw
        exact hbad (Or.inr ⟨hk,hw⟩)
      obtain ⟨pages,hres,htaken⟩ := State.take_wellFormed hs hk hwell
      have hcount : pages.length = reply.count := by
        rw [← List.length_map (·.dmaAddress), htaken.addresses, TakeReply.addresses, List.length_map, List.length_range]
      rw [hres]
      refine ⟨?_,htaken.length hs,hcount ▸ hwell.count,fun h => absurd rfl h⟩
      rw [htaken.released]
      exact hs.sublist (List.filter_sublist.map _)
    · have htake : s.take functionId embedded requested reply = ((reply.kr,0),s) := by
        simp only [State.take, if_neg (fun ht => hbad (Or.inl ht)), ne_eq, hk, not_false_eq_true, ↓reduceIte]
      rw [htake]
      exact ⟨hs,rfl,Nat.zero_le _,fun _ => rfl⟩

theorem always_takePages (h₀ : 0 < requested) (hmax : requested ≤ maxManagePages) {w : World} (hw : w.Linked) :
    Prog.Always anyEnv (fun _ => True) (takePages functionId embedded requested) (fun result t => t.Linked ∧
      t.host.fPages.length + result.2 = w.host.fPages.length ∧ result.2 ≤ requested ∧
      (result.1 ≠ .success → result.2 = 0)) w := by
  refine Prog.always_of_run onePageAnswers (fun (oracle : Oracle) => ?_)
  rw [takePages_run h₀ hmax]
  by_cases hsub : oracle.submits
  · rw [if_pos hsub]
    exact State.take_length hw _
  · rw [if_neg hsub]
    exact ⟨hw,rfl,Nat.zero_le _,fun _ => rfl⟩

/-! ## `reclaimAll` -/

/-- The scan stops the loop only where no page is firmware-owned, and else asks for at least one. -/
theorem firstOwned_cases (s : State) : (s.firstOwned = none ∧ ∀ p ∈ s.fPages, p.ownership ≠ .firmwareOwned) ∨
    ∃ first count, s.firstOwned = some (first,count) ∧ 0 < count := by
  unfold State.firstOwned
  cases hf : s.fPages.filter (fun p => p.ownership = .firmwareOwned) with
  | nil =>
    refine Or.inl ⟨rfl,fun p hp ho => ?_⟩
    have hm : p ∈ s.fPages.filter (fun p => p.ownership = .firmwareOwned) := List.mem_filter.mpr ⟨hp,by simpa using ho⟩
    rw [hf] at hm
    cases hm
  | cons first rest =>
    refine Or.inr ⟨first,_,rfl,List.length_pos_of_mem (List.mem_filter.mpr ⟨List.mem_cons_self,?_⟩)⟩
    simp

/-- The loop of `reclaimAll` where `pages` pages are tracked and the last `empty` replies returned none:
every reply takes away a page or one of the waits that are left. -/
theorem reclaimLoop_ends {timeoutMs : ℕ} (ht : timeoutMs ≤ 2 ^ 32 - 51) (fuel pages empty : ℕ) {w : World} (hw : w.Linked)
    (hpages : w.host.fPages.length = pages) (hempty : empty ≤ timeoutMs / 50 + 1)
    (hfuel : pages * (timeoutMs / 50 + 2) + (timeoutMs / 50 + 2 - empty) < fuel) :
    Prog.Always anyEnv (fun _ => True) (reclaimLoop timeoutMs fuel (50 * empty)) (fun result t =>
      ∃ kr, result = some kr ∧ (kr = .success → t.host.firstOwned = none)) w := by
  induction fuel generalizing pages empty w with
  | zero => cases hfuel
  | succ fuel ih =>
    rcases firstOwned_cases w.host with ⟨hnone,_⟩ | ⟨first,count,hsome,hcount⟩
    · simp only [reclaimLoop, Prog.bind_eq, Prog.pure_eq, host, Prog.get, Prog.bind, Prog.Always, hnone]
      exact ⟨trivial,_,rfl,fun _ => trivial⟩
    · have hbound : 0 < min count maxManagePages := by
        rw [lt_min_iff]
        exact ⟨hcount,by decide⟩
      simp only [reclaimLoop, Prog.bind_eq, Prog.pure_eq, host, Prog.get, Prog.bind, Prog.Always, hsome]
      refine Prog.Always.bind (always_takePages hbound (min_le_right _ _) hw) ?_
      rintro ⟨kr,returned⟩ t _ ⟨hlinked,hlen,_⟩
      dsimp only at hlen ⊢
      by_cases hk : kr = .success
      · rw [if_neg (not_not.mpr hk)]
        by_cases hr : returned = 0
        · rw [if_pos hr]
          by_cases hwait : 50 * empty ≥ timeoutMs
          · rw [if_pos hwait]
            exact ⟨trivial,trivial,trivial,_,rfl,fun h => by cases h⟩
          · rw [if_neg hwait, Nat.mod_eq_of_lt (by omega), ← Nat.mul_succ]
            exact ih t.host.fPages.length (empty + 1) hlinked rfl (by omega)
              (by subst hr; rw [← hlen, Nat.add_zero] at hpages; rw [hpages]; omega)
        · rw [if_neg hr]
          have hless : t.host.fPages.length + 1 ≤ pages := by omega
          have hmul := Nat.mul_le_mul_right (timeoutMs / 50 + 2) hless
          rw [Nat.succ_mul] at hmul
          exact ih t.host.fPages.length 0 hlinked rfl (Nat.zero_le _) (by omega)
      · rw [if_pos hk]
        exact ⟨trivial,kr,rfl,fun h => absurd h hk⟩

/-- `reclaimAll` succeeds only where the firmware has no page left. -/
theorem reclaimAll_ends {timeoutMs : ℕ} (ht : timeoutMs ≤ 2 ^ 32 - 51) {w : World} (hw : w.Linked) (more : ℕ) :
    Prog.Always anyEnv (fun _ => True)
      (reclaimAll ((w.host.fPages.length + 1) * (timeoutMs / 50 + 2) + 1 + more) timeoutMs) (fun result t =>
        ∃ kr, result = some kr ∧ (kr = .success → t.host.hasOutstandingPages = false)) w := by
  have hmul : (w.host.fPages.length + 1) * (timeoutMs / 50 + 2) =
      w.host.fPages.length * (timeoutMs / 50 + 2) + (timeoutMs / 50 + 2) := Nat.succ_mul _ _
  refine Prog.Always.bind (reclaimLoop_ends ht _ w.host.fPages.length 0 hw rfl (Nat.zero_le _) (by omega)) ?_
  rintro result t _ ⟨kr,rfl,hdone⟩
  simp only [Prog.bind_eq, Prog.pure_eq, host, Prog.get, Prog.bind, Prog.Always]
  by_cases hready : t.host.hasAmbiguousPages = true ∧ some kr = some .success
  · rw [if_pos hready]
    exact ⟨trivial,_,rfl,fun h => by cases h⟩
  · rw [if_neg hready]
    refine ⟨trivial,kr,rfl,fun hk => ?_⟩
    have hambiguous : t.host.hasAmbiguousPages = false := by
      by_contra ha
      exact hready ⟨by simpa using ha,congrArg some hk⟩
    have howned : ∀ p ∈ t.host.fPages, p.ownership ≠ .firmwareOwned := by
      rcases firstOwned_cases t.host with ⟨_,h⟩ | ⟨_,_,hsome,_⟩
      · exact h
      · rw [hdone hk] at hsome
        cases hsome
    simp only [State.hasOutstandingPages, State.hasAmbiguousPages, List.any_eq_false, decide_eq_true_eq, not_or] at hambiguous ⊢
    exact fun p hp => ⟨howned p hp,(hambiguous p hp).1,(hambiguous p hp).2⟩

/-! ## The TAKE loop of `processRequest` -/

/-- The loop of `processRequest` with its counter `remaining`: the result and the counter at the end, and
`none` where the fuel ends before the loop does. -/
def takeRemaining (functionId : ℕ) (embedded : Bool) : ℕ → BitVec 32 → Pages (Option (IOReturn × BitVec 32))
  | 0, _ => pure none
  | fuel + 1, remaining =>
    if remaining = 0 then pure (some (.success,0)) else do
    let batch := if remaining.toNat > maxManagePages then maxManagePages else remaining.toNat
    let (kr,returned) ← takePages functionId embedded batch
    if kr ≠ .success then pure (some (kr,remaining))
    else if returned = 0 then
      update (State.markFunctionAmbiguous functionId embedded)
      update (State.setFatal .protocol)
      pure (some (.ioError,remaining))
    else takeRemaining functionId embedded fuel (remaining - BitVec.ofNat 32 returned)

theorem batch_eq (remaining : ℕ) :
    (if remaining > maxManagePages then maxManagePages else remaining) = min remaining maxManagePages := by
  split <;> omega

theorem toNat_pos {remaining : BitVec 32} (h : remaining ≠ 0) : 0 < remaining.toNat :=
  Nat.pos_of_ne_zero (fun hn => h (BitVec.eq_of_toNat_eq hn))

theorem toNat_sub_returned {remaining : BitVec 32} {returned : ℕ} (h : returned ≤ remaining.toNat) :
    (remaining - BitVec.ofNat 32 returned).toNat = remaining.toNat - returned := by
  have hlt := remaining.isLt
  rw [BitVec.toNat_sub, BitVec.toNat_ofNat]
  omega

/-- Pages returned and pages remaining are those asked for, at every exit of the loop. -/
theorem takeRemaining_ends (fuel : ℕ) (remaining : BitVec 32) {w : World} (hw : w.Linked) (hfuel : remaining.toNat < fuel) :
    Prog.Always anyEnv (fun _ => True) (takeRemaining functionId embedded fuel remaining) (fun result t =>
      ∃ kr left, result = some (kr,left) ∧ (kr = .success ↔ left = 0) ∧
        t.host.fPages.length + remaining.toNat = w.host.fPages.length + left.toNat) w := by
  induction fuel generalizing remaining w with
  | zero => cases hfuel
  | succ fuel ih =>
    simp only [takeRemaining, Prog.bind_eq, Prog.pure_eq]
    by_cases hzero : remaining = 0
    · rw [if_pos hzero]
      exact ⟨trivial,_,_,rfl,iff_of_true rfl rfl,by rw [hzero]⟩
    · rw [if_neg hzero]
      have hpos := toNat_pos hzero
      rw [batch_eq]
      refine Prog.Always.bind (always_takePages (lt_min hpos (by decide)) (min_le_right _ _) hw) ?_
      rintro ⟨kr,returned⟩ t _ ⟨hlinked,hlen,hle,hfail⟩
      dsimp only at hlen hle hfail ⊢
      have hmax := hle.trans (min_le_left _ _)
      by_cases hk : kr = .success
      · rw [if_neg (not_not.mpr hk)]
        by_cases hr : returned = 0
        · rw [if_pos hr]
          refine ⟨trivial,trivial,trivial,_,_,rfl,iff_of_false (fun h => by cases h) hzero,?_⟩
          have hmarked : ((t.host.markFunctionAmbiguous functionId embedded).setFatal .protocol).fPages.length =
              t.host.fPages.length := List.length_map _
          dsimp only
          omega
        · rw [if_neg hr]
          have hsub := toNat_sub_returned hmax
          refine (ih _ hlinked (by rw [hsub]; omega)).mono ?_
          rintro result u _ ⟨kr,left,hresult,hiff,hcount⟩
          exact ⟨kr,left,hresult,hiff,by omega⟩
      · rw [if_pos hk]
        have hnone := hfail hk
        exact ⟨trivial,kr,remaining,rfl,iff_of_false hk hzero,by omega⟩

/-- The loop with an unbounded counter comes to the same results. -/
theorem takeLoop_of_takeRemaining {R : IOReturn → World → Prop} (fuel : ℕ)
    (remaining : BitVec 32) {w : World} (hw : w.Linked)
    (hfuel : remaining.toNat ≤ fuel) (h : Prog.Always anyEnv (fun _ => True)
    (takeRemaining functionId embedded (fuel + 1) remaining)
      (fun result t => ∀ kr left, result = some (kr,left) → R kr t) w) :
    Prog.Always anyEnv (fun _ => True) (takeLoop functionId embedded fuel remaining.toNat) R w := by
  induction fuel generalizing remaining w with
  | zero =>
    have hzero : remaining = 0 := BitVec.eq_of_toNat_eq (Nat.le_zero.mp hfuel)
    simp only [takeRemaining, Prog.pure_eq, if_pos hzero] at h
    exact ⟨trivial,h.2 _ _ rfl⟩
  | succ fuel ih =>
    rw [takeRemaining] at h
    simp only [takeLoop, Prog.bind_eq, Prog.pure_eq] at h ⊢
    by_cases hzero : remaining = 0
    · rw [if_pos hzero] at h
      rw [if_pos (show remaining.toNat = 0 by rw [hzero]; rfl)]
      exact ⟨trivial,h.2 _ _ rfl⟩
    · rw [if_neg hzero, batch_eq] at h
      have hpos := toNat_pos hzero
      rw [if_neg hpos.ne']
      refine ((Prog.always_bind.mp h).and (always_takePages (lt_min hpos (by decide)) (min_le_right _ _) hw)).bind ?_
      rintro ⟨kr,returned⟩ t _ ⟨hnext,hlinked,_,hle,_⟩
      dsimp only at hnext hle ⊢
      have hmax := hle.trans (min_le_left _ _)
      by_cases hk : kr = .success
      · rw [if_neg (not_not.mpr hk)] at hnext ⊢
        by_cases hr : returned = 0
        · rw [if_pos hr] at hnext ⊢
          exact ⟨trivial,trivial,trivial,hnext.2.2.2 _ _ rfl⟩
        · rw [if_neg hr] at hnext ⊢
          rw [← toNat_sub_returned hmax]
          exact ih _ hlinked (by rw [toNat_sub_returned hmax]; omega) hnext
      · rw [if_pos hk] at hnext ⊢
        exact ⟨trivial,hnext.2 _ _ rfl⟩

/-- For every page list and every sequence of firmware outcomes both loops end: `reclaimAll` succeeds only
where no page is left with the firmware, and the loop of a request for `-numPages` pages succeeds exactly when
as many were released. Its counter never underflows: what it ends with is what is missing. -/
theorem reclaim_ends (w : World) (hw : w.Linked) :
    (∀ timeoutMs ≤ 2 ^ 32 - 51, ∃ fuel, ∀ more, Prog.Always anyEnv (fun _ => True) (reclaimAll (fuel + more) timeoutMs)
      (fun result t => ∃ kr, result = some kr ∧ (kr = .success → t.host.hasOutstandingPages = false)) w) ∧
    ∀ request : Request, request.releaseAll = false → int32Min < request.numPages → request.numPages < 0 →
      (∀ more, Prog.Always anyEnv (fun _ => True) (takeRemaining request.functionId request.embedded
        ((-request.numPages).toNat + 1 + more) (BitVec.ofNat 32 (-request.numPages).toNat)) (fun result t =>
          ∃ kr left, result = some (kr,left) ∧ (kr = .success ↔ left = 0) ∧
            t.host.fPages.length + (-request.numPages).toNat = w.host.fPages.length + left.toNat) w) ∧
      Prog.Always anyEnv (fun _ => True) (processRequest request) (fun kr t =>
        kr = .success ↔ t.host.fPages.length + (-request.numPages).toNat = w.host.fPages.length) w := by
  refine ⟨fun timeoutMs ht => ⟨_,fun more => reclaimAll_ends ht hw more⟩,fun request hall hmin hneg => ?_⟩
  have hn : (BitVec.ofNat 32 (-request.numPages).toNat).toNat = (-request.numPages).toNat := by
    rw [BitVec.toNat_ofNat]
    exact Nat.mod_eq_of_lt (by unfold int32Min at hmin; omega)
  have hends : ∀ fuel, (-request.numPages).toNat < fuel → Prog.Always anyEnv (fun _ => True)
      (takeRemaining request.functionId request.embedded fuel (BitVec.ofNat 32 (-request.numPages).toNat)) (fun result t =>
        ∃ kr left, result = some (kr,left) ∧ (kr = .success ↔ left = 0) ∧
          t.host.fPages.length + (-request.numPages).toNat = w.host.fPages.length + left.toNat) w := by
    intro fuel hfuel
    refine (takeRemaining_ends fuel _ hw (by rw [hn]; exact hfuel)).mono ?_
    rintro result t _ ⟨kr,left,hresult,hiff,hcount⟩
    exact ⟨kr,left,hresult,hiff,by rw [← hn]; omega⟩
  refine ⟨fun more => hends _ (by omega),?_⟩
  have hnotpos : ¬ 0 < request.numPages := by omega
  have hloop : processRequest request =
      takeLoop request.functionId request.embedded (-request.numPages).toNat (-request.numPages).toNat := by
    simp only [processRequest, hall, Bool.false_eq_true, ↓reduceIte,
      if_neg hnotpos, hneg, ne_eq, hmin.ne', not_false_eq_true, and_self]
  have hsame := takeLoop_of_takeRemaining (R := fun kr t => kr = .success ↔
    t.host.fPages.length + (-request.numPages).toNat = w.host.fPages.length) (-request.numPages).toNat
    (BitVec.ofNat 32 (-request.numPages).toNat) hw hn.le ((hends _ (Nat.lt_succ_self _)).mono ?_)
  · rw [hloop]
    rwa [hn] at hsame
  · rintro result t _ ⟨kr,left,hresult,hiff,hcount⟩ kr' left' hresult'
    obtain ⟨rfl,rfl⟩ := Prod.mk.inj (Option.some.inj (hresult.symm.trans hresult'))
    rw [hiff, ← BitVec.toNat_inj, hcount]
    simp

theorem reclaim_ends_twoPages :
    (∃ fuel, ∀ more, Prog.Always anyEnv (fun _ => True) (reclaimAll (fuel + more) 100)
      (fun result t => ∃ kr, result = some kr ∧ (kr = .success → t.host.hasOutstandingPages = false)) twoPages) ∧
    Prog.Always anyEnv (fun _ => True) (processRequest ⟨0,false,false,-1⟩) (fun kr t =>
      kr = .success ↔ t.host.fPages.length + 1 = 2) twoPages :=
  ⟨(reclaim_ends twoPages (by decide)).1 100 (by decide),
    ((reclaim_ends twoPages (by decide)).2 ⟨0,false,false,-1⟩ rfl (by decide) (by decide)).2⟩

end AppleMCX.FwPages
