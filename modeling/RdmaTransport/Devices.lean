import RdmaTransport.Lib.Objects

/-!
# Looking up a device

`DeviceList` keeps an array of pointers to devices, each of them allocated by itself.
`get_device` does not walk that array. It takes the pointer to the first device and
increments it, looking for a null pointer that is never there. After the first device it
accesses memory that is no device of the list. So it finds the first device of the list
and nothing else.

Of a `Device` only the name is kept. It is the text before the NUL, and `strcmp` returns 0
for equal names.
-/

namespace RdmaTransport

open Objects

/-- `Device`. -/
structure Device where
  /-- The field `name`. -/
  name : List UInt8
  deriving DecidableEq

/-- `DeviceList` with the memory its devices are in. -/
structure DeviceList where
  /-- The memory. -/
  heap : Heap Device
  /-- The array `devices`. -/
  devices : List Ptr

/-- The body of the loop of the constructor. -/
def DeviceList.addDevice (l : DeviceList) (name : List UInt8) : DeviceList :=
  let out := l.heap.new [⟨name⟩]
  ⟨out.1, l.devices ++ [out.2]⟩

/-- The constructor `DeviceList(c)`, with the names of the devices that
`ibv_get_device_list` returns. -/
def DeviceList.construct (heap : Heap Device) (names : List (List UInt8)) : DeviceList :=
  names.foldl DeviceList.addDevice ⟨heap, []⟩

/-- `DeviceList::get_device`. In an empty list already `devices[0]` is outside the array. -/
def DeviceList.getDevice (l : DeviceList) (name : List UInt8) : Walk :=
  match l.devices[0]? with
  | none => ⟨[], none⟩
  | some r => l.heap.walk (fun d => d.name = name) r

/-- The first device of the list with the given name, or null. -/
def DeviceList.firstNamed (l : DeviceList) (name : List UInt8) : Ptr :=
  (l.devices.find? fun p => (l.heap.load p).map Device.name = some name).getD .null

/-- The lookup inspects only devices of the list, and returns the first one with the given
name, or null if there is none. -/
def DeviceList.LooksUp (l : DeviceList) (name : List UInt8) (out : Walk) : Prop :=
  (∀ p ∈ out.inspected, p ∈ l.devices) ∧ out.result = some (l.firstNamed name)

/-- The devices of a new list, each in an allocation of its own. -/
theorem DeviceList.foldl_addDevice (l : DeviceList) (names : List (List UInt8)) :
    names.foldl addDevice l =
      ⟨⟨l.heap.allocs ++ names.map fun name => [⟨name⟩]⟩,
        l.devices ++ (List.range' l.heap.allocs.length names.length).map (Ptr.into · 0)⟩ := by
  induction names generalizing l with
  | nil => simp
  | cons name names ih =>
    rw [List.foldl_cons, ih]
    simp [addDevice, Heap.new, List.range'_succ]

/-- A new list that is not empty begins with a pointer to its first device, behind which there
is no other object. -/
theorem DeviceList.construct_cons (heap : Heap Device) (first : List UInt8)
    (names : List (List UInt8)) :
    (construct heap (first :: names)).devices =
        .into heap.allocs.length 0 ::
          (List.range' (heap.allocs.length + 1) names.length).map (Ptr.into · 0) ∧
      (construct heap (first :: names)).heap.load (.into heap.allocs.length 0) = some ⟨first⟩ ∧
      (construct heap (first :: names)).heap.load (.into heap.allocs.length 1) = none := by
  have hload := heap.load_append_right ((first :: names).map fun name => [(⟨name⟩ : Device)]) 0
  rw [construct, foldl_addDevice]
  refine ⟨?_, hload 0, hload 1⟩
  simp [List.range'_succ]

/-- **Looking up a device.** For any devices and any name, `get_device` inspects only devices of
the list and returns the first one with that name, or null if there is none, exactly when
the first device of the list has that name. -/
theorem getDevice_looksUp_iff (heap : Heap Device) (names : List (List UInt8))
    (name : List UInt8) :
    (DeviceList.construct heap names).LooksUp name
        ((DeviceList.construct heap names).getDevice name) ↔
      names.head? = some name := by
  cases names with
  | nil =>
    refine iff_of_false ?_ (by simp)
    rintro ⟨_, hresult⟩
    cases hresult
  | cons first names =>
    obtain ⟨hdevices, hfirst, hbehind⟩ := DeviceList.construct_cons heap first names
    have hget : (DeviceList.construct heap (first :: names)).getDevice name =
        (DeviceList.construct heap (first :: names)).heap.walk (fun d => d.name = name)
          (.into heap.allocs.length 0) := by
      rw [DeviceList.getDevice, hdevices]
      rfl
    rw [hget, Heap.walk_eq, if_neg (by simp), hfirst, List.head?_cons, Option.some.injEq]
    by_cases hname : first = name
    · refine iff_of_true ?_ hname
      simp only [hname, decide_true, if_true]
      refine ⟨?_, ?_⟩
      · rw [List.forall_mem_singleton, ← hname, hdevices]
        exact List.mem_cons_self
      · rw [DeviceList.firstNamed, ← hname, hdevices, List.find?_cons_of_pos (by simp [hfirst])]
        rfl
    · refine iff_of_false ?_ hname
      rintro ⟨_, hresult⟩
      -- The second access is behind the only object of the allocation.
      simp only [hname, decide_false, Bool.false_eq_true, if_false, Ptr.next] at hresult
      rw [Heap.walk_eq, if_neg (by simp), hbehind] at hresult
      cases hresult

/-- In a list of two devices the second one is not found. -/
theorem second_device_not_found :
    ¬(DeviceList.construct ⟨[]⟩ [[109, 108, 120, 53, 95, 48], [109, 108, 120, 53, 95, 49]]).LooksUp
      [109, 108, 120, 53, 95, 49]
      ((DeviceList.construct ⟨[]⟩ [[109, 108, 120, 53, 95, 48],
        [109, 108, 120, 53, 95, 49]]).getDevice [109, 108, 120, 53, 95, 49]) := by
  rintro ⟨hinspected, _⟩
  exact absurd (hinspected (.into 0 1) (by decide)) (by decide)

end RdmaTransport
