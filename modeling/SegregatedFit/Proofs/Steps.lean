import SegregatedFit.Heap.Basic

namespace SegregatedFit

theorem plus_of_lt {a b : Nat} (small : a + b < offsetLimit) : plus a b = .ok (a + b) :=
  if_pos small

theorem minus_of_le {a b : Nat} (le : b ≤ a) : minus a b = .ok (a - b) := if_pos le

theorem of_bind_eq_ok {α β : Type} {first : Except Fault α} {later : α → Except Fault β} {b : β}
    (ran : (first >>= later) = .ok b) : ∃ a, first = .ok a ∧ later a = .ok b := by
  cases first with
  | error fault => cases ran
  | ok a => exact ⟨a, rfl, ran⟩

namespace Heap

section Running

variable {M α β : Type} {h h' : Heap M}

theorem bind_of_ok {first : HeapM M α} {next : α → HeapM M β} {a : α} (ran : first h = .ok a h') :
    (first >>= next) h = next a h' := by
  simp only [bind, EStateM.bind, ran]

theorem bind_of_error {first : HeapM M α} {next : α → HeapM M β} {fault : Fault}
    (ran : first h = .error fault h') : (first >>= next) h = .error fault h' := by
  simp only [bind, EStateM.bind, ran]

theorem of_bind_ok {first : HeapM M α} {next : α → HeapM M β} {b : β}
    (ran : (first >>= next) h = .ok b h') :
    ∃ a h₁, first h = .ok a h₁ ∧ next a h₁ = .ok b h' := by
  cases started : first h with
  | ok a h₁ =>
    rw [bind_of_ok started] at ran
    exact ⟨a, h₁, rfl, ran⟩
  | error fault h₁ =>
    rw [bind_of_error started] at ran
    cases ran

theorem of_query_ok {read : M → Except Fault α} {a : α} (ran : query read h = .ok a h') :
    read h.memory = .ok a ∧ h = h' := by
  unfold query at ran
  cases answer : read h.memory <;> simp [answer] at ran
  exact ⟨congrArg Except.ok ran.1, ran.2⟩

theorem of_lift_ok {read : Except Fault α} {a : α}
    (ran : (liftM read : HeapM M α) h = .ok a h') : read = .ok a ∧ h = h' := by
  cases read <;> cases ran
  exact ⟨rfl, rfl⟩

theorem discard_of_ok {step : HeapM M α} {a : α} (ran : step h = .ok a h') :
    (discard step : HeapM M Unit) h = .ok () h' := by
  simp [discard, Functor.mapConst, Function.comp, EStateM.map, ran]

theorem query_bind (read : M → Except Fault α) (next : α → HeapM M β) :
    (query read >>= next) h =
      match read h.memory with
      | .ok a => next a h
      | .error fault => .error fault h := by
  simp only [bind, EStateM.bind, query]
  cases read h.memory <;> rfl

theorem lift_bind (read : Except Fault α) (next : α → HeapM M β) :
    ((liftM read : HeapM M α) >>= next) h =
      match read with
      | .ok a => next a h
      | .error fault => .error fault h := by
  cases read <;> rfl

theorem pure_apply (a : α) : (pure a : HeapM M α) h = .ok a h := rfl

theorem get_bind (next : Heap M → HeapM M β) : (get >>= next) h = next h h := rfl

theorem write_apply (change : M → M) :
    write change h = .ok () { h with memory := change h.memory } := rfl

theorem record_apply (entry : Entry) :
    record entry h = .ok () { h with journal := h.journal.push entry } := rfl

theorem head_apply (cls : SizeClass) : head cls h = .ok (h.lists.head cls) h := rfl

theorem setHead_apply (cls : SizeClass) (b : Block) :
    setHead cls b h = .ok () { h with lists := h.lists.setHead cls b } := rfl

end Running

section Writing

variable {M : Type} [Memory M] {h : Heap M}

theorem memorySize_apply : memorySize h = .ok (Memory.size h.memory) h := rfl

theorem setNat_of_inside {offset bytes value : Nat}
    (inside : offset + bytes ≤ Memory.size h.memory) :
    setNat offset bytes value h =
      .ok () { h with memory := Memory.writeNat h.memory offset bytes value } := by
  simp only [setNat, query_bind, Memory.ensure_eq_ok.mpr inside, write_apply]

theorem setBytes_of_inside {offset : Nat} {bytes : ByteArray}
    (inside : offset + bytes.size ≤ Memory.size h.memory) :
    setBytes offset bytes h =
      .ok () { h with memory := Memory.writeRun h.memory offset bytes } := by
  simp only [setBytes, query_bind, Memory.ensure_eq_ok.mpr inside, write_apply]

theorem fillBytes_of_inside {offset count : Nat} {value : UInt8}
    (inside : offset + count ≤ Memory.size h.memory) :
    fillBytes offset count value h =
      .ok () { h with memory := Memory.fill h.memory offset count value } := by
  simp only [fillBytes, query_bind, Memory.ensure_eq_ok.mpr inside, write_apply]

theorem copyBytes_of_inside {source target count : Nat}
    (source_inside : source + count ≤ Memory.size h.memory)
    (target_inside : target + count ≤ Memory.size h.memory) :
    copyBytes source target count h = .ok ()
      { h with
        memory := Memory.writeRun h.memory target (Memory.readRun h.memory source count) } := by
  have taken : Memory.slice h.memory source count = .ok (Memory.readRun h.memory source count) := by
    simp only [Memory.slice, Memory.ensure_eq_ok.mpr source_inside]
    rfl
  simp only [copyBytes, query_bind, taken]
  exact setBytes_of_inside (by simpa using target_inside)

end Writing

end Heap

end SegregatedFit
