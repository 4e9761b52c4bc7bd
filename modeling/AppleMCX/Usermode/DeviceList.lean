import AppleMCX.Interaction.Transition
import Mathlib.Data.List.Nodup
import Mathlib.Data.List.TakeWhile
import Mathlib.Logic.Function.Basic

/-! # The list of devices

`ibv_get_device_list` with its tables, over the services that `libmlx` finds at each call.
-/
namespace AppleMCX.DeviceList
open Interaction

def MLX_MAX_DEVICES : ℕ := 8

/-- A `MlxRoCE` service: its registry entry, the name that is read and copied from its property, and
whether a connection to it can be opened. -/
structure Service where
  entry : ℕ
  deviceName : Option String
  opens : Bool

/-- What a call finds in the registry. The names are those that the driver numbers its devices by. -/
structure Registry where
  services : List Service
  /-- `IOServiceGetMatchingServices` of `mlx_list_devices` succeeds. -/
  matching : Bool
  entries : (services.map Service.entry).Nodup
  names : (services.filterMap Service.deviceName).Nodup
  named : ∀ svc ∈ services, svc.deviceName ≠ some ""

/-- `mlx_context`, with the entry that `conn` is a connection to. -/
structure MlxContext where
  conn : ℕ
  devname : Option String

def mlx_list_devices (max : ℕ) (r : Registry) : List String :=
  if r.matching then (r.services.filterMap Service.deviceName).take max else []

/-- Without a name, the first service. -/
def mlx_open_device_by_name (name : Option String) (r : Registry) : Option MlxContext :=
  let found :=
    if name = none ∨ name = some "" then r.services.head?
    else r.services.find? (fun svc => svc.deviceName = name)
  match found with
  | none => none
  | some svc => if svc.opens then some ⟨svc.entry,name⟩ else none

def mlx_open_device (r : Registry) : Option MlxContext := mlx_open_device_by_name none r

/-- The pointers of `g_devices` are the numbers of the elements of `g_device_arr` that they point to, of which only the
name is filled in. -/
structure State where
  g_devices : ℕ → Option ℕ
  g_device_arr : ℕ → String
  g_dev_ctx : ℕ → Option MlxContext
  /-- The entries that were opened, first to last. -/
  opened : List ℕ

def initial : State := ⟨fun _ => none,fun _ => "",fun _ => none,[]⟩

/-- What a call returns, and leaves behind `num_devices` where that is given. -/
structure Result where
  list : Bool
  num_devices : Option ℕ

structure IbvContext where
  device : ℕ
  mlx_ctx : MlxContext

namespace State

def store (i : ℕ) (name : String) (ctx : MlxContext) (s : State) : State where
  g_devices := Function.update s.g_devices i (some i)
  g_device_arr := Function.update s.g_device_arr i name
  g_dev_ctx := Function.update s.g_dev_ctx i (some ctx)
  opened := s.opened ++ [ctx.conn]

/-- The loop over the names, from slot `i` on. -/
def fill (r : Registry) : ℕ → List String → State → State
  | _, [], s => s
  | i, name :: names, s =>
    match mlx_open_device_by_name (some name) r with
    | none => fill r (i + 1) names s
    | some ctx => fill r (i + 1) names (s.store i name ctx)

def ibv_get_device_list (num : Bool) (r : Registry) (s : State) : Result × State :=
  let count (n : ℕ) : Option ℕ := if num then some n else none
  match s.g_devices 0 with
  | some _ => (⟨true,count 0⟩,s)
  | none =>
    let names := mlx_list_devices MLX_MAX_DEVICES r
    if names.length = 0 then
      match mlx_open_device r with
      | none => (⟨false,count 0⟩,s)
      | some ctx => (⟨true,count 1⟩,s.store 0 "mlx5_0" ctx)
    else
      let s := s.fill r 0 names
      (⟨true,count names.length⟩,{ s with g_devices := Function.update s.g_devices names.length none })

/-- `calloc` says whether the context can be allocated. -/
def ibv_open_device (calloc : Bool) (device : Option ℕ) (s : State) : Option IbvContext :=
  match device with
  | none => none
  | some d =>
    if !calloc then none
    else
      match (List.range MLX_MAX_DEVICES).find? (fun i => s.g_devices i = some d ∧ (s.g_dev_ctx i).isSome) with
      | none => none
      | some i => (s.g_dev_ctx i).map (fun ctx => ⟨d,ctx⟩)

/-- The number of entries in front of the first NULL. -/
def leading (s : State) : ℕ := (((List.range (MLX_MAX_DEVICES + 1)).map s.g_devices).takeWhile Option.isSome).length

/-- The entry that `ibv_open_device` gets a connection to by element `i` of the list. -/
def connAt (s : State) (i : ℕ) : Option ℕ := (s.ibv_open_device true (s.g_devices i)).map (fun ctx => ctx.mlx_ctx.conn)

/-- What a list says that was returned. -/
structure Consistent (res : Result) (s : State) : Prop where
  num_devices : ∀ n, res.num_devices = some n → n = s.leading
  terminated : s.g_devices s.leading = none
  /-- Each device is in the list once, and can be opened there. -/
  listed : ∀ entry ∈ s.opened, ∃! i, i < s.leading ∧ s.connAt i = some entry
  once : s.opened.Nodup

end State

structure Call where
  num : Bool
  registry : Registry

def step (s : State) (c : Call) : Option State := some (s.ibv_get_device_list c.num c.registry).2

/-- The device of that name can be opened. -/
def Opens (r : Registry) (name : String) : Prop := (mlx_open_device_by_name (some name) r).isSome = true

instance (r : Registry) (name : String) : Decidable (Opens r name) := inferInstanceAs (Decidable (_ = true))

/-- A call that asks for the number comes first, and all devices can be opened; any other call finds the list made, or no
device behind one that cannot be opened. -/
def Meets (s : State) (c : Call) : Prop :=
  if c.num then s.g_devices 0 = none ∧ ∀ name ∈ mlx_list_devices MLX_MAX_DEVICES c.registry, Opens c.registry name
  else s.g_devices 0 = none →
    (mlx_list_devices MLX_MAX_DEVICES c.registry).Pairwise (fun a b => Opens c.registry b → Opens c.registry a)

/-! ## Names and connections -/

variable {r : Registry}

theorem mlx_list_devices_nodup (r : Registry) (max : ℕ) : (mlx_list_devices max r).Nodup := by
  unfold mlx_list_devices
  split
  · exact r.names.sublist (List.take_sublist max _)
  · exact List.nodup_nil

theorem mlx_list_devices_length (r : Registry) (max : ℕ) : (mlx_list_devices max r).length ≤ max := by
  unfold mlx_list_devices
  split
  · exact List.length_take_le max _
  · exact Nat.zero_le _

/-- The entry that is opened by a name. -/
def connOf (r : Registry) (name : String) : Option ℕ := (mlx_open_device_by_name (some name) r).map MlxContext.conn

theorem connOf_service {name : String} (hname : name ≠ "") {entry : ℕ} (h : connOf r name = some entry) :
    ∃ svc ∈ r.services, svc.deviceName = some name ∧ svc.entry = entry := by
  unfold connOf mlx_open_device_by_name at h
  have hne : ¬ (some name = none ∨ some name = some "") := by
    rintro (h | h)
    · cases h
    · exact hname (Option.some.inj h)
  rw [if_neg hne] at h
  dsimp only at h
  split at h
  · cases h
  · rename_i svc hfind
    split at h
    · have hsvc := List.find?_some hfind
      exact ⟨svc,List.mem_of_find?_eq_some hfind,of_decide_eq_true hsvc,Option.some.inj h⟩
    · cases h

theorem connOf_inj {name name' : String} (hname : name ≠ "") (hname' : name' ≠ "")
    {entry : ℕ} (h : connOf r name = some entry)
    (h' : connOf r name' = some entry) : name = name' := by
  obtain ⟨svc,hmem,hsvc,he⟩ := connOf_service hname h
  obtain ⟨svc',hmem',hsvc',he'⟩ := connOf_service hname' h'
  obtain rfl := List.inj_on_of_nodup_map r.entries hmem hmem' (he.trans he'.symm)
  exact Option.some.inj (hsvc.symm.trans hsvc')

theorem mlx_list_devices_named {max : ℕ} {name : String} (h : name ∈ mlx_list_devices max r) : name ≠ "" := by
  rintro rfl
  unfold mlx_list_devices at h
  split at h
  · obtain ⟨svc,hmem,hsvc⟩ := List.mem_filterMap.mp (List.mem_of_mem_take h)
    exact r.named svc hmem hsvc
  · cases h

/-! ## The loop over the names -/

section store
variable (i : ℕ) (name : String) (ctx : MlxContext) (s : State)

theorem State.store_self : (s.store i name ctx).g_devices i = some i ∧ (s.store i name ctx).g_dev_ctx i = some ctx :=
  ⟨Function.update_self _ _ _,Function.update_self _ _ _⟩

theorem State.store_of_ne {j : ℕ} (hj : j ≠ i) : (s.store i name ctx).g_devices j = s.g_devices j ∧
    (s.store i name ctx).g_dev_ctx j = s.g_dev_ctx j :=
  ⟨Function.update_of_ne hj _ _,Function.update_of_ne hj _ _⟩

end store

/-- What the loop has put into slot `j`. -/
def slot (r : Registry) (names : List String) (j : ℕ) : Option MlxContext :=
  names[j]?.bind (fun name => mlx_open_device_by_name (some name) r)

/-- The loop has gone over the names from slot `i` on. -/
structure Filled (r : Registry) (i : ℕ) (names : List String) (s t : State) : Prop where
  below : ∀ j < i, t.g_devices j = s.g_devices j ∧ t.g_dev_ctx j = s.g_dev_ctx j
  g_devices : ∀ j, t.g_devices (i + j) = ((slot r names j).map (fun _ => i + j)).or (s.g_devices (i + j))
  g_dev_ctx : ∀ j, t.g_dev_ctx (i + j) = (slot r names j).or (s.g_dev_ctx (i + j))
  opened : t.opened = s.opened ++ names.filterMap (connOf r)

/-- The loop has gone over slot `i`, and `ctx` is what it has opened. -/
structure Tried (i : ℕ) (ctx : Option MlxContext) (s t : State) : Prop where
  others : ∀ j, j ≠ i → t.g_devices j = s.g_devices j ∧ t.g_dev_ctx j = s.g_dev_ctx j
  g_devices : t.g_devices i = (ctx.map (fun _ => i)).or (s.g_devices i)
  g_dev_ctx : t.g_dev_ctx i = ctx.or (s.g_dev_ctx i)
  opened : t.opened = s.opened ++ (ctx.map MlxContext.conn).toList

theorem tried_none (i : ℕ) (s : State) : Tried i none s s :=
  ⟨fun _ _ => ⟨rfl,rfl⟩,rfl,rfl,(List.append_nil _).symm⟩

theorem tried_store (i : ℕ) (name : String) (ctx : MlxContext) (s : State) :
    Tried i (some ctx) s (s.store i name ctx) :=
  ⟨fun _ hj => s.store_of_ne i name ctx hj,(s.store_self i name ctx).1,(s.store_self i name ctx).2,rfl⟩

theorem Filled.cons {i : ℕ} {name : String} {names : List String} {s s' t : State}
    (ht : Filled r (i + 1) names s' t) (hs : Tried i (mlx_open_device_by_name (some name) r) s s') :
    Filled r i (name :: names) s t := by
  have hzero : slot r (name :: names) 0 = mlx_open_device_by_name (some name) r := rfl
  have hsucc : ∀ j, slot r (name :: names) (j + 1) = slot r names j := fun _ => rfl
  have hnext : ∀ j, i + (j + 1) = i + 1 + j := fun j => by omega
  obtain ⟨hbelow,hdev,hctx,hlog⟩ := ht
  refine ⟨fun j hj => ?_,fun j => ?_,fun j => ?_,?_⟩
  · obtain ⟨hj₁,hj₂⟩ := hbelow j (by omega)
    obtain ⟨hs₁,hs₂⟩ := hs.others j (by omega)
    exact ⟨hj₁.trans hs₁,hj₂.trans hs₂⟩
  · cases j with
    | zero =>
      rw [hzero]
      exact (hbelow i (by omega)).1.trans hs.g_devices
    | succ j => rw [hsucc, hnext, hdev j, (hs.others (i + 1 + j) (by omega)).1]
  · cases j with
    | zero =>
      rw [hzero]
      exact (hbelow i (by omega)).2.trans hs.g_dev_ctx
    | succ j => rw [hsucc, hnext, hctx j, (hs.others (i + 1 + j) (by omega)).2]
  · have hconn : connOf r name = (mlx_open_device_by_name (some name) r).map MlxContext.conn := rfl
    rw [hlog, hs.opened, ← hconn, List.append_assoc, List.filterMap_cons]
    cases connOf r name <;> rfl

theorem fill_filled (r : Registry) (i : ℕ) (names : List String) (s : State) :
    Filled r i names s (s.fill r i names) := by
  induction names generalizing i s with
  | nil => exact ⟨fun _ _ => ⟨rfl,rfl⟩,fun _ => rfl,fun _ => rfl,(List.append_nil _).symm⟩
  | cons name names ih =>
    unfold State.fill
    cases hopen : mlx_open_device_by_name (some name) r with
    | none => exact (ih (i + 1) s).cons (hopen ▸ tried_none i s)
    | some ctx => exact (ih (i + 1) (s.store i name ctx)).cons (hopen ▸ tried_store i name ctx s)

/-! ## Reading a list -/

/-- The entries in front of the first NULL are counted. -/
theorem State.leading_eq {s : State} {k : ℕ} (hk : k ≤ MLX_MAX_DEVICES) (hsome : ∀ i < k, (s.g_devices i).isSome = true)
    (hnone : s.g_devices k = none) : s.leading = k := by
  obtain ⟨rest,hrest⟩ := Nat.exists_eq_add_of_le hk
  have hall : ∀ a ∈ (List.range k).map s.g_devices, Option.isSome a = true := by
    intro a ha
    obtain ⟨i,hi,rfl⟩ := List.mem_map.mp ha
    exact hsome i (List.mem_range.mp hi)
  unfold leading
  rw [hrest, Nat.add_assoc, List.range_add, List.map_append, List.takeWhile_append_of_pos hall, List.range_succ_eq_map,
    List.map_cons, List.map_cons, Nat.add_zero, hnone, List.takeWhile_cons_of_neg Bool.false_ne_true, List.append_nil,
    List.length_map, List.length_range]

/-- An element points to its own entry of `g_device_arr`, with a context. -/
theorem State.connAt_eq {s : State} (hself : ∀ i v, s.g_devices i = some v → v = i) {i : ℕ} (hi : i < MLX_MAX_DEVICES)
    {ctx : MlxContext} (hdev : s.g_devices i = some i) (hctx : s.g_dev_ctx i = some ctx) :
    s.connAt i = some ctx.conn := by
  have hfind : (List.range MLX_MAX_DEVICES).find? (fun j => s.g_devices j = some i ∧ (s.g_dev_ctx j).isSome) = some i := by
    rw [List.find?_range_eq_some]
    refine ⟨decide_eq_true ⟨hdev,by rw [hctx]; rfl⟩,List.mem_range.mpr hi,fun j hj => ?_⟩
    have hne : ¬ (s.g_devices j = some i ∧ (s.g_dev_ctx j).isSome = true) := by
      rintro ⟨hj',-⟩
      exact absurd (hself j i hj') (by omega)
    rw [decide_eq_false hne]
    rfl
  unfold connAt ibv_open_device
  rw [hdev]
  dsimp only
  rw [hfind]
  show Option.map _ (Option.map _ (s.g_dev_ctx i)) = _
  rw [hctx]
  rfl

/-- The first `k` elements are the devices that were opened, in order. -/
structure Listed (s : State) (k : ℕ) : Prop where
  le : k ≤ MLX_MAX_DEVICES
  stored : ∀ i < k, s.g_devices i = some i
  free : ∀ i, k ≤ i → s.g_devices i = none
  conns : ∀ i < k, ∃ ctx, s.g_dev_ctx i = some ctx ∧ s.opened[i]? = some ctx.conn
  length : s.opened.length = k
  nodup : s.opened.Nodup

section listed
variable {s : State} {k : ℕ} (h : Listed s k)
include h

theorem Listed.leading : s.leading = k :=
  s.leading_eq h.le (fun i hi => by rw [h.stored i hi]; rfl) (h.free k (Nat.le_refl _))

theorem Listed.connAt {i : ℕ} (hi : i < k) : s.connAt i = s.opened[i]? := by
  have hself : ∀ i v, s.g_devices i = some v → v = i := by
    intro i v hv
    by_cases hi : i < k
    · rw [h.stored i hi] at hv
      exact (Option.some.inj hv).symm
    · rw [h.free i (Nat.le_of_not_lt hi)] at hv
      cases hv
  obtain ⟨ctx,hctx,hopened⟩ := h.conns i hi
  rw [hopened]
  exact s.connAt_eq hself (Nat.lt_of_lt_of_le hi h.le) (h.stored i hi) hctx

theorem Listed.consistent {res : Result} (hnum : ∀ n, res.num_devices = some n → n = k) : s.Consistent res := by
  refine ⟨?_,?_,?_,h.nodup⟩
  · rw [h.leading]
    exact hnum
  · rw [h.leading]
    exact h.free k (Nat.le_refl _)
  · intro entry hentry
    obtain ⟨i,hi⟩ := List.mem_iff_getElem?.mp hentry
    have hbound := (List.getElem?_eq_some_iff.mp hi).1
    have hlt : i < k := h.length ▸ hbound
    rw [h.leading]
    refine ⟨i,⟨hlt,(h.connAt hlt).trans hi⟩,?_⟩
    rintro j ⟨hj,hconn⟩
    rw [h.connAt hj] at hconn
    exact ((List.getElem?_inj hbound h.nodup).mp (hi.trans hconn.symm)).symm

end listed

/-! ## One call -/

/-- The tables after the devices were opened by their names. -/
structure Enumerated (r : Registry) (names : List String) (t : State) : Prop where
  g_devices : ∀ j, t.g_devices j = (slot r names j).map (fun _ => j)
  g_dev_ctx : ∀ j ctx, slot r names j = some ctx → t.g_dev_ctx j = some ctx
  opened : t.opened = names.filterMap (connOf r)

theorem slot_eq_none {names : List String} {j : ℕ} (h : names.length ≤ j) : slot r names j = none := by
  rw [slot, List.getElem?_eq_none h]
  rfl

theorem enumerated {s : State} (h : Listed s 0) (names : List String) : Enumerated r names
    { s.fill r 0 names with g_devices := Function.update (s.fill r 0 names).g_devices names.length none } := by
  have hf := fill_filled r 0 names s
  refine ⟨fun j => ?_,fun j ctx hslot => ?_,?_⟩
  · dsimp only
    by_cases hj : j = names.length
    · rw [hj, Function.update_self, slot_eq_none (Nat.le_refl _)]
      rfl
    · have hdev := hf.g_devices j
      rw [Nat.zero_add, h.free j (Nat.zero_le j), Option.or_none] at hdev
      rw [Function.update_of_ne hj, hdev]
  · have hctx := hf.g_dev_ctx j
    rw [Nat.zero_add, hslot] at hctx
    exact hctx
  · have hopened := hf.opened
    rw [List.eq_nil_of_length_eq_zero h.length, List.nil_append] at hopened
    exact hopened

/-- Where no device is behind one that cannot be opened, the list splits. -/
theorem exists_split {α : Type} {p : α → Prop} {l : List α} (h : l.Pairwise (fun a b => p b → p a)) :
    ∃ pre post, l = pre ++ post ∧ (∀ a ∈ pre, p a) ∧ ∀ a ∈ post, ¬ p a := by
  induction l with
  | nil => exact ⟨[],[],rfl,fun _ h => (by cases h),fun _ h => (by cases h)⟩
  | cons a l ih =>
    obtain ⟨hhead,htail⟩ := List.pairwise_cons.mp h
    by_cases ha : p a
    · obtain ⟨pre,post,rfl,hpre,hpost⟩ := ih htail
      exact ⟨a :: pre,post,rfl,List.forall_mem_cons.mpr ⟨ha,hpre⟩,hpost⟩
    · exact ⟨[],a :: l,rfl,fun _ h => (by cases h),List.forall_mem_cons.mpr ⟨ha,fun b hb hpb => ha (hhead b hb hpb)⟩⟩

theorem getElem?_filterMap_of_isSome {α β : Type} {f : α → Option β}
    {l : List α} (h : ∀ a ∈ l, (f a).isSome = true) (j : ℕ) :
    (l.filterMap f)[j]? = l[j]?.bind f := by
  induction l generalizing j with
  | nil => rfl
  | cons a l ih =>
    obtain ⟨b,hb⟩ := Option.isSome_iff_exists.mp (h a List.mem_cons_self)
    rw [List.filterMap_cons_some hb]
    cases j with
    | zero => exact hb.symm
    | succ j => exact ih (fun a ha => h a (List.mem_cons_of_mem _ ha)) j

theorem length_filterMap_of_isSome {α β : Type} {f : α → Option β} {l : List α} (h : ∀ a ∈ l, (f a).isSome = true) :
    (l.filterMap f).length = l.length := by
  induction l with
  | nil => rfl
  | cons a l ih =>
    obtain ⟨b,hb⟩ := Option.isSome_iff_exists.mp (h a List.mem_cons_self)
    rw [List.filterMap_cons_some hb, List.length_cons, List.length_cons, ih (fun a ha => h a (List.mem_cons_of_mem _ ha))]

theorem opens_iff (r : Registry) (name : String) : Opens r name ↔ (connOf r name).isSome = true := by
  rw [Opens, connOf, Option.isSome_map]

theorem State.isSome_of_lt_leading {s : State} {i : ℕ} (h : i < s.leading) : (s.g_devices i).isSome = true := by
  have hprefix := List.takeWhile_prefix Option.isSome (l := (List.range (MLX_MAX_DEVICES + 1)).map s.g_devices)
  have hget := hprefix.getElem h
  have hmem := List.mem_takeWhile_imp (List.getElem_mem h)
  rw [hget, List.getElem_map, List.getElem_range] at hmem
  exact hmem

section calls
variable {s t : State} {names : List String} (he : Enumerated r names t)
include he

theorem Enumerated.self (i v : ℕ) (h : t.g_devices i = some v) : v = i := by
  rw [he.g_devices] at h
  obtain ⟨ctx,-,rfl⟩ := Option.map_eq_some_iff.mp h
  rfl

theorem Enumerated.slot_of_lt {i : ℕ} (h : i < t.leading) : ∃ ctx, slot r names i = some ctx := by
  have hsome := State.isSome_of_lt_leading h
  rw [he.g_devices, Option.isSome_map] at hsome
  exact Option.isSome_iff_exists.mp hsome

theorem Enumerated.opens_of_lt {i : ℕ} (h : i < t.leading) (hi : i < names.length) : Opens r names[i] := by
  obtain ⟨ctx,hslot⟩ := he.slot_of_lt h
  obtain ⟨name,hname,hopen⟩ := Option.bind_eq_some_iff.mp hslot
  rw [List.getElem?_eq_getElem hi] at hname
  rw [Option.some.inj hname, Opens, hopen]
  rfl

variable (hnodup : names.Nodup) (hnamed : ∀ name ∈ names, name ≠ "") (hlen : names.length ≤ MLX_MAX_DEVICES)
include hnodup hnamed

theorem Enumerated.nodup : t.opened.Nodup := by
  rw [he.opened]
  refine List.pairwise_filterMap.mpr (hnodup.imp_of_mem ?_)
  intro name name' hmem hmem' hne entry hentry entry' hentry' heq
  exact hne (connOf_inj (hnamed name hmem) (hnamed name' hmem') hentry (heq ▸ hentry'))

include hlen

/-- Where no device is behind one that cannot be opened, the list has those that can be opened. -/
theorem Enumerated.listed (hopens : names.Pairwise (fun a b => Opens r b → Opens r a)) :
    ∃ k, Listed t k ∧ ((∀ name ∈ names, Opens r name) → k = names.length) := by
  have hnd := he.nodup hnodup hnamed
  obtain ⟨pre,post,rfl,hpre,hpost⟩ := exists_split hopens
  have hsome : ∀ a ∈ pre, (connOf r a).isSome = true := fun a ha => (opens_iff r a).mp (hpre a ha)
  have hnone : post.filterMap (connOf r) = [] := by
    refine List.filterMap_eq_nil_iff.mpr (fun a ha => ?_)
    exact Option.not_isSome_iff_eq_none.mp (fun h => hpost a ha ((opens_iff r a).mpr h))
  have hopened : t.opened = pre.filterMap (connOf r) := by
    rw [he.opened, List.filterMap_append, hnone, List.append_nil]
  have hslot : ∀ i (hi : i < pre.length), ∃ ctx, slot r (pre ++ post) i = some ctx ∧ connOf r pre[i] = some ctx.conn := by
    intro i hi
    obtain ⟨ctx,hctx⟩ := Option.isSome_iff_exists.mp (hpre _ (List.getElem_mem hi))
    refine ⟨ctx,?_,by rw [connOf, hctx]; rfl⟩
    rw [slot, List.getElem?_append_left hi, List.getElem?_eq_getElem hi]
    exact hctx
  rw [List.length_append] at hlen
  refine ⟨pre.length,⟨by omega,fun i hi => ?_,fun i hi => ?_,fun i hi => ?_,?_,hnd⟩,fun hall => ?_⟩
  · obtain ⟨ctx,hctx,-⟩ := hslot i hi
    rw [he.g_devices, hctx]
    rfl
  · have hfree : slot r (pre ++ post) i = none := by
      rw [slot, List.getElem?_append_right hi]
      cases hp : post[i - pre.length]? with
      | none => rfl
      | some a => exact Option.not_isSome_iff_eq_none.mp (hpost a (List.mem_of_getElem? hp))
    rw [he.g_devices, hfree]
    rfl
  · obtain ⟨ctx,hctx,hconn⟩ := hslot i hi
    refine ⟨ctx,he.g_dev_ctx i ctx hctx,?_⟩
    rw [hopened, getElem?_filterMap_of_isSome hsome, List.getElem?_eq_getElem hi]
    exact hconn
  · rw [hopened, length_filterMap_of_isSome hsome]
  · have hnil : post = [] := List.eq_nil_iff_forall_not_mem.mpr
      (fun a ha => hpost a ha (hall a (List.mem_append_right pre ha)))
    rw [hnil, List.append_nil]

/-- A list that is consistent has no device behind one that cannot be opened. -/
theorem Enumerated.pairwise {res : Result} (hc : t.Consistent res) :
    names.Pairwise (fun a b => Opens r b → Opens r a) := by
  refine List.pairwise_iff_getElem.mpr (fun i j hi hj hij hopen => ?_)
  obtain ⟨entry,hentry⟩ := Option.isSome_iff_exists.mp ((opens_iff r _).mp hopen)
  have hmem : entry ∈ t.opened := by
    rw [he.opened]
    exact List.mem_filterMap.mpr ⟨_,List.getElem_mem hj,hentry⟩
  obtain ⟨d,⟨hd,hconn⟩,-⟩ := hc.listed entry hmem
  obtain ⟨ctx,hslot⟩ := he.slot_of_lt hd
  obtain ⟨name,hname,hctx⟩ := Option.bind_eq_some_iff.mp hslot
  obtain ⟨hdlt,rfl⟩ := List.getElem?_eq_some_iff.mp hname
  have hdev : t.g_devices d = some d := by
    rw [he.g_devices, hslot]
    rfl
  rw [t.connAt_eq he.self (Nat.lt_of_lt_of_le hdlt hlen) hdev (he.g_dev_ctx d ctx hslot)] at hconn
  have hsame : connOf r names[d] = some entry := by
    rw [connOf, hctx]
    exact hconn
  have heq := connOf_inj (hnamed _ (List.getElem_mem hdlt)) (hnamed _ (List.getElem_mem hj)) hsame hentry
  have hdj : d = j := (List.Nodup.getElem_inj_iff hnodup).mp heq
  exact he.opens_of_lt (by omega) hi

end calls

/-- What is true of a call: the list that it returns, if it returns one, is consistent. -/
def Call.Answered (s : State) (c : Call) : Prop :=
  (s.ibv_get_device_list c.num c.registry).1.list = true →
    (s.ibv_get_device_list c.num c.registry).2.Consistent (s.ibv_get_device_list c.num c.registry).1

section step
variable {s : State} {k : ℕ} {c : Call}

/-- The list has been made before; its length is not reported again. -/
theorem cached (h : Listed s k) (hk : 0 < k) :
    (c.Answered s ↔ Meets s c) ∧ Listed (s.ibv_get_device_list c.num c.registry).2 k := by
  have hzero := h.stored 0 hk
  unfold Call.Answered State.ibv_get_device_list
  rw [hzero]
  refine ⟨?_,h⟩
  unfold Meets
  cases hnum : c.num with
  | true =>
    refine iff_of_false (fun ha => ?_) (fun hm => ?_)
    · have hlen := (ha rfl).num_devices 0 rfl
      rw [h.leading] at hlen
      omega
    · have hnone := hm.1
      rw [hzero] at hnone
      cases hnone
  | false =>
    refine iff_of_true (fun _ => h.consistent (fun n hn => by cases hn)) (fun hnone => ?_)
    rw [hzero] at hnone
    cases hnone

/-- The default device is tried where no name is found. -/
theorem fallback (h : Listed s 0) (hnames : mlx_list_devices MLX_MAX_DEVICES c.registry = []) :
    (c.Answered s ↔ Meets s c) ∧ ∃ k, Listed (s.ibv_get_device_list c.num c.registry).2 k := by
  have hmeets : Meets s c := by
    unfold Meets
    rw [hnames]
    split
    · exact ⟨h.free 0 (Nat.le_refl _),fun _ hm => (by cases hm)⟩
    · exact fun _ => List.Pairwise.nil
  unfold Call.Answered State.ibv_get_device_list
  rw [h.free 0 (Nat.le_refl _), hnames]
  dsimp only
  rw [if_pos List.length_nil]
  cases hopen : mlx_open_device c.registry with
  | none => exact ⟨iff_of_true (fun hl => (by cases hl)) hmeets,0,h⟩
  | some ctx =>
    have hopened : s.opened = [] := List.eq_nil_of_length_eq_zero h.length
    have hlisted : Listed (s.store 0 "mlx5_0" ctx) 1 := by
      refine ⟨by decide,fun i hi => ?_,fun i hi => ?_,fun i hi => ?_,?_,?_⟩
      · obtain rfl : i = 0 := by omega
        exact (s.store_self 0 "mlx5_0" ctx).1
      · exact (s.store_of_ne 0 "mlx5_0" ctx (by omega)).1.trans (h.free i (Nat.zero_le i))
      · obtain rfl : i = 0 := by omega
        refine ⟨ctx,(s.store_self 0 "mlx5_0" ctx).2,?_⟩
        rw [State.store, hopened]
        rfl
      · rw [State.store, hopened]
        rfl
      · rw [State.store, hopened]
        exact List.nodup_singleton _
    refine ⟨iff_of_true (fun _ => hlisted.consistent (fun n hn => ?_)) hmeets,1,hlisted⟩
    dsimp only at hn
    split at hn
    · exact (Option.some.inj hn).symm
    · cases hn

theorem Meets.pairwise (hm : Meets s c) (hzero : s.g_devices 0 = none) :
    (mlx_list_devices MLX_MAX_DEVICES c.registry).Pairwise (fun a b => Opens c.registry b → Opens c.registry a) := by
  unfold Meets at hm
  split at hm
  · exact List.pairwise_of_forall_mem_list (fun a ha _ _ _ => hm.2 a ha)
  · exact hm hzero

/-- The devices that were found are opened by their names. -/
theorem enumerates (h : Listed s 0) (hnames : mlx_list_devices MLX_MAX_DEVICES c.registry ≠ []) :
    (c.Answered s ↔ Meets s c) ∧ (Meets s c → ∃ k, Listed (s.ibv_get_device_list c.num c.registry).2 k) := by
  have hzero := h.free 0 (Nat.le_refl _)
  have hpairwise := fun hm : Meets s c => hm.pairwise hzero
  have hnodup := mlx_list_devices_nodup c.registry MLX_MAX_DEVICES
  have hnamed : ∀ name ∈ mlx_list_devices MLX_MAX_DEVICES c.registry, name ≠ "" := fun _ hm => mlx_list_devices_named hm
  have hlen := mlx_list_devices_length c.registry MLX_MAX_DEVICES
  unfold Call.Answered State.ibv_get_device_list
  unfold Meets at hpairwise ⊢
  rw [hzero] at hpairwise ⊢
  dsimp only
  generalize mlx_list_devices MLX_MAX_DEVICES c.registry = names at hnames hpairwise hnodup hnamed hlen ⊢
  rw [if_neg (fun h0 => hnames (List.eq_nil_of_length_eq_zero h0))]
  have he := enumerated (r := c.registry) h names
  refine ⟨⟨fun ha => ?_,fun hm _ => ?_⟩,fun hm => ?_⟩
  · have hc := ha rfl
    split
    · rename_i hnum
      refine ⟨rfl,fun name hname => ?_⟩
      have hlead := hc.num_devices names.length (if_pos hnum)
      obtain ⟨i,hi,rfl⟩ := List.mem_iff_getElem.mp hname
      exact he.opens_of_lt (hlead ▸ hi) hi
    · exact fun _ => he.pairwise hnodup hnamed hlen hc
  · obtain ⟨k,hk,hall⟩ := he.listed hnodup hnamed hlen (hpairwise hm)
    refine hk.consistent (fun n hn => ?_)
    dsimp only at hn
    split at hn
    · rename_i hnum
      rw [if_pos hnum] at hm
      rw [hall hm.2]
      exact (Option.some.inj hn).symm
    · cases hn
  · obtain ⟨k,hk,-⟩ := he.listed hnodup hnamed hlen (hpairwise hm)
    exact ⟨k,hk⟩

theorem call_spec (h : Listed s k) : (c.Answered s ↔ Meets s c) ∧
    (Meets s c → ∃ k, Listed (s.ibv_get_device_list c.num c.registry).2 k) := by
  rcases Nat.eq_zero_or_pos k with rfl | hk
  · by_cases hnames : mlx_list_devices MLX_MAX_DEVICES c.registry = []
    · exact ⟨(fallback h hnames).1,fun _ => (fallback h hnames).2⟩
    · exact enumerates h hnames
  · exact ⟨(cached h hk).1,fun _ => ⟨k,(cached h hk).2⟩⟩

end step

/-! ## Results -/

theorem listed_initial : Listed initial 0 :=
  ⟨Nat.zero_le _,fun i hi => absurd hi (Nat.not_lt_zero i),fun _ _ => rfl,
    fun i hi => absurd hi (Nat.not_lt_zero i),rfl,List.nodup_nil⟩

/-- In a run of calls that all meet the condition, a call is answered as it should be exactly where it meets it as well. -/
theorem deviceList_run (s : State) (hr : Reach step Meets initial s) (c : Call) : c.Answered s ↔ Meets s c := by
  have hlisted : ∃ k, Listed s k := by
    refine hr.invariant (J := fun s => ∃ k, Listed s k) ⟨0,listed_initial⟩ ?_
    rintro s c t ⟨k,h⟩ hm hs
    cases hs
    exact (call_spec h).2 hm
  obtain ⟨k,h⟩ := hlisted
  exact (call_spec h).1

def twoDevices (opens : Bool) : Registry where
  services := [⟨1,some "mlx5_0",opens⟩,⟨2,some "mlx5_1",true⟩]
  matching := true
  entries := by cases opens <;> decide
  names := by cases opens <;> decide
  named := by cases opens <;> decide

/-- The list of the first call is returned again. -/
theorem deviceList_run_again : (⟨false,twoDevices true⟩ : Call).Answered
    (initial.ibv_get_device_list true (twoDevices true)).2 := by
  have hfirst : Meets initial ⟨true,twoDevices true⟩ := by
    refine ⟨rfl,?_⟩
    decide
  refine (deviceList_run _ (Reach.start.next (l := ⟨true,twoDevices true⟩) hfirst rfl) _).mpr ?_
  intro hzero
  cases hzero

/-- Two devices are reported, but the list begins with NULL. -/
theorem twoDevices_not_answered : ¬ (⟨true,twoDevices false⟩ : Call).Answered initial := by
  intro h
  have hnum := (h rfl).num_devices 2 rfl
  revert hnum
  decide

end AppleMCX.DeviceList
