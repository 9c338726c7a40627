import SegregatedFit.Arena.Buffer
import SegregatedFit.Proofs.Reachability

namespace SegregatedFit

namespace Heap

variable {A : Type} [Arena A] {h : Heap A} {v : View} {x : Span} {count size : Nat}

/-- The payload of `b`, of `n` bytes, is all zeros, and the rest of the heap is as it was. Right behind
the payload are the footer of the block and the header of the next one. -/
structure Cleared (h h' : Heap A) (b n : Nat) : Prop where
  zero : ∀ i, b ≤ i → i < b + n → Memory.byte h'.memory i = 0
  byte : ∀ i, ¬(b ≤ i ∧ i < b + n) → Memory.byte h'.memory i = Memory.byte h.memory i
  size : Memory.size h'.memory = Memory.size h.memory
  within : b + n + 8 ≤ Memory.size h.memory
  payload : Block.payloadSize h.memory b = .ok n
  header : Block.tag h'.memory b = Block.tag h.memory b
  footer : Block.tagAt h'.memory (b + n) = Block.tagAt h.memory (b + n)
  behind : Block.tagAt h'.memory (b + n + 4) = Block.tagAt h.memory (b + n + 4)
  chain : h'.chain = h.chain
  lists : h'.lists = h.lists
  prologue : h'.prologue = h.prologue
  config : h'.config = h.config
  journal : h'.journal = h.journal

theorem Sound.cleared (sound : h.Sound v) (live : x ∈ v.used) (avoided : v.Avoids x) :
    ∃ h', clear x.block h = .ok () h' ∧ h.Cleared h' x.block (x.tag.size - 8) := by
  have bounds := sound.shown.within (View.mem_of_used live)
  have room := sound.shown.room_eight x (View.mem_of_used live)
  have filled := sound.byte_clear live
  have same : ∀ i, ¬(x.block ≤ i ∧ i < x.block + (x.tag.size - 8)) →
      Memory.byte (Memory.fill h.memory x.block (x.tag.size - 8) 0) i = Memory.byte h.memory i :=
    fun i outside => by rw [filled, if_neg outside]
  have size := Memory.size_fill h.memory x.block (x.tag.size - 8) 0
  have sound' := sound.payload_written live avoided size fun i outside => same i (by
    unfold Span.Payload at outside
    omega)
  refine ⟨_, sound.clear_eq live, ?_⟩
  constructor
  case zero => exact fun i low high => by rw [filled, if_pos ⟨low, high⟩]
  case byte => exact same
  case size => exact size
  case within => omega
  case payload => exact sound.read_payloadSize live
  case header => exact Block.tag_congr size fun i _ _ => same i (by omega)
  case footer => exact Block.tagAt_congr size fun i _ _ => same i (by omega)
  case behind => exact Block.tagAt_congr size fun i _ _ => same i (by omega)
  case chain => rw [sound.chain_eq, sound'.chain_eq]
  all_goals rfl

/-- What zeroed allocation does to the heap that a plain one with this answer leaves. -/
def Zeroes (h h' : Heap A) (bytes : Nat) : Except HeapError Block → Prop
  | .ok b => ∃ n, bytes ≤ n ∧ h.Cleared h' b n
  | .error _ => h' = h

theorem Sound.allocateZeroed_zeroes (sound : h.Sound v) (small : count * size < offsetLimit) :
    ∃ answer h₁ h₂, allocate (count * size) h = .ok answer h₁ ∧
      allocateZeroed count size h = .ok answer h₂ ∧ h₁.Zeroes h₂ (count * size) answer := by
  obtain ⟨answer, h₁, v₁, _, ran, sound₁, _, grants⟩ := allocate_sound sound (count * size)
  cases answer with
  | error error =>
    exact ⟨.error error, h₁, h₁, ran, allocateZeroed_of_error small ran, rfl⟩
  | ok b =>
    obtain ⟨y, rfl, perm, enough, avoided⟩ := grants
    have live : y ∈ v₁.used := perm.mem_iff.mpr (List.mem_cons_self ..)
    obtain ⟨h₂, cleared, zeroed⟩ := sound₁.cleared live avoided
    exact ⟨.ok y.block, h₁, h₂, ran, allocateZeroed_of_cleared small ran cleared,
      y.tag.size - 8, by omega, zeroed⟩

end Heap

namespace Session

variable {A : Type} [Arena A] {s : Session A}

/-- In every session that can come about, zeroed allocation answers what plain allocation of the
product would, and leaves the same heap but for zeros in the whole payload. A product out of range is
an error that changes nothing. -/
theorem allocateZeroed_eq_cleared (reached : s.Reached) (count size : Nat) :
    (offsetLimit ≤ count * size → Heap.allocateZeroed count size s.heap =
      .ok (.error (.sizeOverflow (offsetLimit - 1))) s.heap) ∧
    (count * size < offsetLimit → ∃ answer h₁ h₂,
      Heap.allocate (count * size) s.heap = .ok answer h₁ ∧
      Heap.allocateZeroed count size s.heap = .ok answer h₂ ∧
      h₁.Zeroes h₂ (count * size) answer) := by
  obtain ⟨v, kept⟩ := reached.kept
  exact ⟨Heap.allocateZeroed_of_large, kept.sound.allocateZeroed_zeroes⟩

def soiling : List Request :=
  [.allocate 16, .write 16 0 ⟨.replicate 16 255⟩, .release (some 16)]

theorem soiled_recycled : (outcome (Buffer.new 96) ⟨128, 32⟩ soiling).map (fun ended =>
    match Heap.allocate (3 * 5) ended.2.heap with
    | .ok answer h => (answer.toOption, Memory.readRun h.memory 24 8)
    | .error _ _ => (none, ⟨#[]⟩)) =
      some (some 16, ⟨.replicate 8 255⟩) := by
  decide +kernel

theorem soiled_cleared : ∃ (s : Session Buffer) (h₁ h₂ : Heap Buffer), s.Reached ∧
    Heap.allocate (3 * 5) s.heap = .ok (.ok 16) h₁ ∧
    Memory.readRun h₁.memory 24 8 = ⟨.replicate 8 255⟩ ∧
    Heap.allocateZeroed 3 5 s.heap = .ok (.ok 16) h₂ ∧ ∃ n, 15 ≤ n ∧ h₁.Cleared h₂ 16 n := by
  obtain ⟨⟨answers, s⟩, ended, recycled⟩ := Option.map_eq_some_iff.mp soiled_recycled
  have reached : s.Reached := .of_outcome (by decide) ended
  obtain ⟨answer, h₁, h₂, ran, zeroed, cleared⟩ :=
    (allocateZeroed_eq_cleared reached 3 5).2 (by decide)
  simp only [ran, Prod.mk.injEq] at recycled
  obtain ⟨answered, soiled⟩ := recycled
  cases answer with
  | error error => cases answered
  | ok b =>
    cases answered
    exact ⟨s, h₁, h₂, reached, ran, soiled, zeroed, cleared⟩

end Session

end SegregatedFit
