import AppleMCX.Core.FwPages
import Mathlib.Data.List.Nodup

/-! # The pages behind the firmware's holdings

What each MANAGE_PAGES outcome changes on the firmware's side, and which changes of the
host's page list keep every page that the firmware holds, or may still take up.
-/
namespace AppleMCX.FwPages
open Interaction

/-! ## The firmware's side -/

def FwPage.held (functionId : ℕ) (embedded : Bool) (p : FwPage) : Held :=
  ⟨p.record,p.dmaAddress,functionId,embedded⟩

@[simp] theorem held_record (functionId : ℕ) (embedded : Bool) (p : FwPage) :
    (p.held functionId embedded).record = p.record := rfl

def Firmware.records (fw : Firmware) : List ℕ := (fw.held ++ fw.late).map (·.record)

/-- A successful TAKE names no page that the firmware keeps. -/
def allowed (w : World) : (q : Question) → Answer q → Prop
  | .take functionId embedded requested, (reply : TakeReply) =>
    reply.kr = .success → reply.count ≤ requested → ∀ i < reply.count, ∀ k ∈ w.fw.held, reply.keep k →
      ¬ (k.dmaAddress = reply.address i ∧ k.functionId = functionId ∧ k.embedded = embedded)
  | _, _ => True

/-- GIVE and TAKE act on success, may act on a timeout, and do nothing on another error. -/
def fwEffect (fw : Firmware) : (q : Question) → Answer q → Firmware
  | .give functionId embedded pages, (kr : IOReturn) =>
    match kr with
    | .success => { fw with held := fw.held ++ pages.map (FwPage.held functionId embedded) }
    | .timeout => { fw with late := fw.late ++ pages.map (FwPage.held functionId embedded) }
    | _ => fw
  | .take _ _ _, (reply : TakeReply) =>
    match reply.kr with
    | .success | .timeout => { fw with held := fw.held.filter reply.keep }
    | _ => fw
  | _, _ => fw

def env : Env World Question Answer where
  Allowed := allowed
  effect w q a := { w with fw := fwEffect w.fw q a }

def initial (fEmbedded : Bool) : World where
  host := { fPages := [], fTrackedPages := 0, fEmbedded, fFatal := false, fFault := .none, nextRecord := 0 }
  fw := ⟨[],[]⟩

/-! ## The invariant -/

/-- The ownership of a page that the firmware may be using. -/
def Outstanding (o : Ownership) : Prop := o = .givePending ∨ o = .firmwareOwned ∨ o = .ambiguous

/-- The ownership of a page whose GIVE has not been confirmed. -/
def Unconfirmed (o : Ownership) : Prop := o = .givePending ∨ o = .ambiguous

theorem Unconfirmed.outstanding {o : Ownership} (h : Unconfirmed o) : Outstanding o := by
  rcases h with rfl | rfl <;> simp [Outstanding]

/-- The host still tracks the page that the firmware knows as `k`. -/
def Backed (host : State) (P : Ownership → Prop) (k : Held) : Prop :=
  ∃ p ∈ host.fPages, p.held p.functionId p.embedded = k ∧ P p.ownership

structure Sound (w : World) : Prop where
  nodup : (w.host.fPages.map (·.record)).Nodup
  below : ∀ p ∈ w.host.fPages, p.record < w.host.nextRecord
  held : ∀ k ∈ w.fw.held, Backed w.host Outstanding k
  late : ∀ k ∈ w.fw.late, Backed w.host Unconfirmed k

theorem sound_initial (fEmbedded : Bool) : Sound (initial fEmbedded) := by
  constructor <;> simp [initial]

theorem Backed.mono {host : State} {P Q : Ownership → Prop} {k : Held} (h : Backed host P k)
    (hPQ : ∀ o, P o → Q o) : Backed host Q k := by
  obtain ⟨p,hp,hk,ho⟩ := h
  exact ⟨p,hp,hk,hPQ _ ho⟩

/-- Everything the firmware holds or may take up is tracked as outstanding. -/
theorem Sound.outstanding {w : World} (h : Sound w) : ∀ k ∈ w.fw.held ++ w.fw.late,
    Backed w.host Outstanding k := by
  intro k hk
  rcases List.mem_append.mp hk with hk | hk
  · exact h.held k hk
  · exact (h.late k hk).mono (fun _ => Unconfirmed.outstanding)

/-! ## Pages by their record -/

theorem mem_of_page {s : State} {record : ℕ} {p : FwPage} (h : s.page record = some p) :
    p ∈ s.fPages ∧ p.record = record := by
  have hm := List.mem_of_find?_eq_some h
  have hr := List.find?_some h
  exact ⟨hm,by simpa using hr⟩

/-- A page that the host tracks as not outstanding is unknown to the firmware. -/
theorem Sound.not_mem_records {w : World} (h : Sound w) {p : FwPage} (hp : p ∈ w.host.fPages)
    (ho : ¬ Outstanding p.ownership) : p.record ∉ w.fw.records := by
  intro hr
  obtain ⟨k,hk,hkr⟩ := List.mem_map.mp hr
  obtain ⟨q,hq,hqk,hqo⟩ := h.outstanding k hk
  have hrec : q.record = p.record := by rw [← hkr, ← hqk]; rfl
  rw [List.inj_on_of_nodup_map h.nodup hq hp hrec] at hqo
  exact ho hqo

theorem mem_records_of_held {fw : Firmware} {k : Held} (h : k ∈ fw.held) : k.record ∈ fw.records :=
  List.mem_map.mpr ⟨k,List.mem_append_left _ h,rfl⟩

theorem mem_records_of_late {fw : Firmware} {k : Held} (h : k ∈ fw.late) : k.record ∈ fw.records :=
  List.mem_map.mpr ⟨k,List.mem_append_right _ h,rfl⟩

/-! ## The page list keeps what the firmware needs -/

@[simp] theorem setOwnership_records (record : ℕ) (o : Ownership) (s : State) :
    (s.setOwnership record o).fPages.map (·.record) = s.fPages.map (·.record) := by
  simp only [State.setOwnership, List.map_map]
  refine List.map_congr_left (fun p _ => ?_)
  dsimp only [Function.comp_apply]
  split <;> rfl

theorem page_setOwnership (record record' : ℕ) (o : Ownership) (s : State) :
    (s.setOwnership record o).page record' =
      (s.page record').map (fun p => if p.record = record then { p with ownership := o } else p) := by
  simp only [State.page, State.setOwnership, List.find?_map]
  congr 2
  funext p
  dsimp only [Function.comp_apply]
  split <;> rfl

/-- `o` may replace the ownership of the page with this record. -/
def Permits (fw : Firmware) (record : ℕ) (o : Ownership) : Prop :=
  ((∃ k ∈ fw.held, k.record = record) → Outstanding o) ∧ ((∃ k ∈ fw.late, k.record = record) → Unconfirmed o)

theorem permits_of_unconfirmed {fw : Firmware} {record : ℕ} {o : Ownership} (h : Unconfirmed o) :
    Permits fw record o := ⟨fun _ => h.outstanding,fun _ => h⟩

theorem permits_of_fresh {fw : Firmware} {record : ℕ} {o : Ownership} (h : record ∉ fw.records) :
    Permits fw record o := by
  constructor
  · rintro ⟨k,hk,rfl⟩; exact absurd (mem_records_of_held hk) h
  · rintro ⟨k,hk,rfl⟩; exact absurd (mem_records_of_late hk) h

theorem Backed.setOwnership {s : State} {P : Ownership → Prop} {k : Held} {record : ℕ} {o : Ownership}
    (h : Backed s P k) (ho : k.record = record → P o) : Backed (s.setOwnership record o) P k := by
  obtain ⟨p,hp,rfl,hP⟩ := h
  refine ⟨_,List.mem_map.mpr ⟨p,hp,rfl⟩,?_,?_⟩
  · split <;> rfl
  · split
    · exact ho ‹_›
    · exact hP

theorem Sound.setOwnership {w : World} (h : Sound w) {record : ℕ} {o : Ownership}
    (ho : Permits w.fw record o) : Sound { w with host := w.host.setOwnership record o } where
  nodup := by simpa using h.nodup
  below := by
    intro p hp
    obtain ⟨q,hq,rfl⟩ := List.mem_map.mp hp
    have hb := h.below q hq
    dsimp only
    split <;> exact hb
  held := fun k hk => (h.held k hk).setOwnership (fun hr => ho.1 ⟨k,hk,hr⟩)
  late := fun k hk => (h.late k hk).setOwnership (fun hr => ho.2 ⟨k,hk,hr⟩)

theorem Backed.releasePage {s : State} {P : Ownership → Prop} {k : Held} {record : ℕ}
    (h : Backed s P k) (hr : k.record ≠ record) : Backed (s.releasePage record) P k := by
  obtain ⟨p,hp,rfl,hP⟩ := h
  have hm : p ∈ (s.releasePage record).fPages := (List.mem_eraseP_of_neg (by simpa using hr)).mpr hp
  exact ⟨p,hm,rfl,hP⟩

/-- Only a page unknown to the firmware may be unmapped and freed. -/
theorem Sound.releasePage {w : World} (h : Sound w) {record : ℕ} (hr : record ∉ w.fw.records) :
    Sound { w with host := w.host.releasePage record } where
  nodup := h.nodup.sublist (List.eraseP_sublist.map _)
  below := fun p hp => h.below p (List.mem_of_mem_eraseP hp)
  held := fun k hk => (h.held k hk).releasePage (fun he => hr (he ▸ mem_records_of_held hk))
  late := fun k hk => (h.late k hk).releasePage (fun he => hr (he ▸ mem_records_of_late hk))

theorem Sound.setFatal {w : World} (h : Sound w) (fault : Fault) :
    Sound { w with host := w.host.setFatal fault } := ⟨h.nodup,h.below,h.held,h.late⟩

theorem Sound.insertPage {w : World} (h : Sound w) {p : FwPage} (hp : p.record = w.host.nextRecord) :
    Sound { w with host := w.host.insertPage p } where
  nodup := by
    refine List.nodup_cons.mpr ⟨?_,h.nodup⟩
    rintro hm
    obtain ⟨q,hq,hqr⟩ := List.mem_map.mp hm
    have hb := h.below q hq
    have hqp : q.record = p.record := hqr
    omega
  below := by
    intro q hq
    rcases List.mem_cons.mp hq with rfl | hq
    · exact Nat.lt_succ_self _
    · have hb := h.below q hq
      show q.record < p.record + 1
      omega
  held := fun k hk => by
    obtain ⟨q,hq,hk⟩ := h.held k hk
    exact ⟨q,List.mem_cons_of_mem _ hq,hk⟩
  late := fun k hk => by
    obtain ⟨q,hq,hk⟩ := h.late k hk
    exact ⟨q,List.mem_cons_of_mem _ hq,hk⟩

/-- A record not yet handed out is unknown to the firmware. -/
theorem Sound.nextRecord_fresh {w : World} (h : Sound w) : w.host.nextRecord ∉ w.fw.records := by
  intro hr
  obtain ⟨k,hk,hkr⟩ := List.mem_map.mp hr
  obtain ⟨p,hp,rfl,_⟩ := h.outstanding k hk
  have hb := h.below p hp
  simp only [FwPage.held] at hkr
  omega

theorem markFunctionAmbiguous_records (functionId : ℕ) (embedded : Bool) (s : State) :
    (s.markFunctionAmbiguous functionId embedded).fPages.map (·.record) = s.fPages.map (·.record) := by
  simp only [State.markFunctionAmbiguous, List.map_map]
  refine List.map_congr_left (fun p _ => ?_)
  dsimp only [Function.comp_apply]
  split <;> rfl

theorem Sound.markFunctionAmbiguous {w : World} (h : Sound w) (functionId : ℕ) (embedded : Bool) :
    Sound { w with host := w.host.markFunctionAmbiguous functionId embedded } := by
  have hb : ∀ {P : Ownership → Prop} {k}, P .ambiguous → Backed w.host P k →
      Backed (w.host.markFunctionAmbiguous functionId embedded) P k := by
    rintro P k hP ⟨p,hp,rfl,ho⟩
    refine ⟨_,List.mem_map.mpr ⟨p,hp,rfl⟩,?_,?_⟩
    · split <;> rfl
    · split
      · exact hP
      · exact ho
  refine ⟨?_,?_,fun k hk => hb (by simp [Outstanding]) (h.held k hk),
    fun k hk => hb (by simp [Unconfirmed]) (h.late k hk)⟩
  · rw [markFunctionAmbiguous_records]
    exact h.nodup
  · intro p hp
    obtain ⟨q,hq,rfl⟩ := List.mem_map.mp hp
    have hb := h.below q hq
    dsimp only
    split <;> exact hb

end AppleMCX.FwPages
