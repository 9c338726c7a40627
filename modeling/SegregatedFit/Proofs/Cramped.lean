import SegregatedFit.Proofs.Creation
import SegregatedFit.Proofs.Failures

namespace SegregatedFit

theorem Tag.size_le_readNat {M : Type} [Memory M] {m : M} {o : Nat} {t : Tag}
    (read : Block.tagAt m o = .ok t) : t.size ≤ Memory.readNat m o 4 := by
  obtain ⟨_, rfl⟩ := Block.tagAt_eq_ok.mp read
  have word : (UInt32.ofNat (Memory.readNat m o 4)).toNat ≤ Memory.readNat m o 4 := by
    rw [UInt32.toNat_ofNat']
    exact Nat.mod_le _ _
  unfold Tag.size
  dsimp only
  omega

namespace Heap

section Inversion

variable {A : Type} [Arena A] {h h' : Heap A}

theorem of_remove_ok {b : Block} (ran : remove b h = .ok () h') :
    ∃ next : Nat, Block.link h.memory b = .ok next ∧ next ≤ Memory.size h.memory := by
  obtain ⟨_, _, sized, ran⟩ := of_bind_ok ran
  obtain ⟨_, rfl⟩ := of_query_ok sized
  obtain ⟨next, _, linked, ran⟩ := of_bind_ok ran
  obtain ⟨link, rfl⟩ := of_query_ok linked
  obtain ⟨_, _, ended, _⟩ := of_bind_ok ran
  obtain ⟨allocated, rfl⟩ := of_query_ok ended
  refine ⟨next, link, ?_⟩
  unfold Block.allocated at allocated
  cases read : Block.tag h.memory next with
  | error fault => simp [read, bind, Except.bind] at allocated
  | ok t => exact (Block.tag_inside read).2

theorem of_coalesce_ok {b c p n : Block} {size : Nat} (prev : Block.prev h.memory b = .ok p)
    (prev_free : Block.allocated h.memory p = .ok false) (next : Block.next h.memory b = .ok n)
    (next_used : Block.allocated h.memory n = .ok true) (read : Block.size h.memory b = .ok size)
    (ran : coalesce b h = .ok c h') : ∃ h₁, remove p h = .ok () h₁ := by
  simp only [coalesce, query_bind, prev, next, prev_free, next_used, read] at ran
  simp only [Bool.false_eq_true, if_false, if_true] at ran
  obtain ⟨_, h₁, removed, _⟩ := of_bind_ok ran
  exact ⟨h₁, removed⟩

theorem of_allocateZeroed_ok {count size : Nat} {b : Block}
    (ran : allocateZeroed count size h = .ok (.ok b) h') :
    ∃ bytes h₁, allocate bytes h = .ok (.ok b) h₁ := by
  unfold allocateZeroed at ran
  cases product : times? count size with
  | none =>
    rw [product] at ran
    cases ran
  | some bytes =>
    rw [product] at ran
    obtain ⟨granted, h₁, allocated, ran⟩ := of_bind_ok ran
    cases granted with
    | error error => cases ran
    | ok c =>
      obtain ⟨_, _, _, ran⟩ := of_bind_ok ran
      cases ran
      exact ⟨bytes, h₁, allocated⟩

end Inversion

section Cramped

variable {A : Type} [Arena A] {arena : A} {config : Config} {journal : Array Entry}
  {h h' : Heap A} {wanted : Nat} (roomy : Arena.Roomy arena config.chunkSize)
  (blank : Memory.size arena = 0) (least : config.chunkSize = 8)

include roomy blank least

theorem cramped_size (journal : Array Entry) :
    Memory.size (fresh arena config journal).memory = 24 := by
  rw [size_fresh roomy, blank, least]

/-- The only block and its link, and behind it what is left of the epilogue. -/
theorem cramped_tags (journal : Array Entry) :
    Block.tag (fresh arena config journal).memory 8 = .ok (Tag.of 8 true) ∧
      Block.tag (fresh arena config journal).memory 16 = .ok (Tag.of 8 false) ∧
      Block.link (fresh arena config journal).memory 16 = .ok 8 := by
  obtain ⟨prologue, chunk, link, _⟩ := fresh_tags roomy (by omega) (by omega) journal
  rw [blank] at prologue chunk link
  rw [least] at chunk
  exact ⟨prologue, chunk, link⟩

theorem cramped_footer (journal : Array Entry) :
    Block.tagAt (fresh arena config journal).memory 16 = .ok ⟨8⟩ := by
  obtain ⟨_, _, link⟩ := cramped_tags roomy blank least journal
  obtain ⟨inside, whole⟩ := Block.link_eq_ok.mp link
  rw [Memory.readNat_add _ _ 4 4] at whole
  have lower : Memory.readNat (fresh arena config journal).memory 16 4 = 8 := by omega
  rw [Block.tagAt_eq_ok, lower]
  exact ⟨by omega, rfl⟩

theorem cramped_filed (journal : Array Entry) :
    Filed (fresh arena config journal).memory (fresh arena config journal).lists (· = 8)
      fun cls => if cls = SizeClass.ofSize 8 then [16] else [] := by
  obtain ⟨prologue, chunk, link⟩ := cramped_tags roomy blank least journal
  have head : ∀ cls, (fresh arena config journal).lists.head cls =
      if cls = SizeClass.ofSize 8 then 16 else 8 := by
    intro cls
    simp only [fresh, FreeLists.head_setHead, FreeLists.head_empty, blank, least]
  constructor
  · intro cls
    refine ⟨8, rfl, ?_⟩
    rw [head]
    split
    · exact ⟨rfl, 8, link, rfl⟩
    · rfl
  · intro cls
    split <;> simp
  · intro cls c member
    split at member
    next here =>
      rw [List.mem_singleton.mp member]
      exact ⟨_, chunk, by decide, here.symm⟩
    · cases member
  · exact congrArg (· + 8) blank
  · rintro stop rfl
    exact ⟨_, prologue, Tag.allocated_sentinel⟩
  · intro cls c first cls' d second different
    split at first <;> split at second <;> simp_all
  · rintro cls c member stop rfl
    split at member <;> simp_all

theorem cramped_firstFit (room : 16 ≤ wanted) (fits : wanted ≤ Tag.maxSize) :
    firstFit wanted (fresh arena config journal) = .ok none (fresh arena config journal) := by
  obtain ⟨_, chunk, _⟩ := cramped_tags roomy blank least journal
  have bounded : wanted ≤ 1 <<< 63 := Nat.le_trans fits (by decide)
  have size : Block.sizeAt (fresh arena config journal).memory 16 = 8 := Block.sizeAt_eq chunk
  simp only [firstFit, get_bind, query,
    (cramped_filed roomy blank least journal).firstFit_eq bounded]
  rw [List.find?_eq_none.mpr]
  intro c member
  obtain ⟨cls, _, listed⟩ := List.mem_flatMap.mp member
  split at listed
  · rw [List.mem_singleton.mp listed, size]
    simpa using by omega
  · cases listed

theorem not_of_cramped_coalesce {c : Block} (room : 16 ≤ wanted) (divides : wanted % 8 = 0)
    (fits : 24 + wanted ≤ Tag.maxSize)
    (admitted : Arena.admits (fresh arena config journal).memory wanted = .ok true)
    (memory : h.memory = extended (fresh arena config journal).memory wanted)
    (ran : coalesce 24 h = .ok c h') : False := by
  obtain ⟨_, chunk, _⟩ := cramped_tags roomy blank least journal
  have footer := cramped_footer roomy blank least journal
  have start := cramped_size roomy blank least journal
  have size := size_extended admitted
  have written := written_extended admitted (by omega) (by omega) divides (by omega)
  have epilogue := epilogue_extended admitted (by omega)
  have same : ∀ i, i < 20 → Memory.byte (extended (fresh arena config journal).memory wanted) i =
      Memory.byte (fresh arena config journal).memory i := fun i low =>
    byte_extended admitted (by omega) (by omega) (by omega)
  have header := written.header
  rw [start] at header epilogue size
  rw [← memory] at header epilogue size same
  have chunk : Block.tag h.memory 16 = .ok (Tag.of 8 false) :=
    Block.tag_of_same (by omega) (fun i _ high => same i (by omega)) chunk
  have footer : Block.tagAt h.memory 16 = .ok ⟨8⟩ :=
    Block.tagAt_of_same (by omega) (fun i _ high => same i (by omega)) footer
  have limit : Tag.maxSize < offsetLimit := by decide
  have wanted_size : (Tag.of wanted false).size = wanted := Tag.size_of false (by omega) divides
  have prev : Block.prev h.memory 24 = .ok 16 :=
    Block.prev_of_tagAt (b := 24) (t := ⟨8⟩) (by decide) footer (by decide)
  have header : Block.tag h.memory 24 = .ok (Tag.of wanted false) := header
  have next := Block.next_of_tag header (by rw [wanted_size]; omega)
  rw [wanted_size] at next
  obtain ⟨_, removed⟩ := of_coalesce_ok prev (Block.allocated_of_tag chunk) next
    (Block.allocated_of_tag epilogue) (Block.size_of_tag header) ran
  obtain ⟨beyond, link, inside⟩ := of_remove_ok removed
  have whole := (Block.link_eq_ok.mp link).2
  rw [Memory.readNat_add _ _ 4 4] at whole
  have upper : wanted ≤ Memory.readNat h.memory (16 + 4) 4 :=
    wanted_size.symm.le.trans (Tag.size_le_readNat (Block.tag_eq_ok.mp header).2)
  have small : Tag.maxSize < 1 <<< 32 := by decide
  omega

theorem not_of_cramped_allocate {size : Nat} {b : Block}
    (ran : allocate size (fresh arena config journal) = .ok (.ok b) h') : False := by
  have needed := blockSizeFor_eq size
  obtain ⟨answer, _, lifted, ran⟩ := of_bind_ok ran
  obtain ⟨needs, rfl⟩ := of_lift_ok lifted
  rw [needs] at needed
  by_cases fits : (size + 15) / 8 * 8 ≤ Tag.maxSize
  · rw [if_pos fits] at needed
    cases needed
    obtain ⟨room, divides, _⟩ := blockSize_spec size
    have small := blockSize_le fits
    have start := cramped_size roomy blank least journal
    have larger : max (blockSize size) config.chunkSize = blockSize size := by omega
    obtain ⟨_, _, read, ran⟩ := of_bind_ok ran
    cases read
    obtain ⟨fit, _, searched, ran⟩ := of_bind_ok ran
    rw [cramped_firstFit roomy blank least room small] at searched
    cases searched
    obtain ⟨found, _, grown, ran⟩ := of_bind_ok ran
    rw [show (fresh arena config journal).config = config from rfl, larger] at grown
    rcases admission (fresh arena config journal) (blockSize size) with refused | ⟨fit, admitted⟩
    · have limit : Tag.maxSize + 8 < offsetLimit := by decide
      rw [grow_of_refused (roundUp_of_divides divides (by omega)) refused] at grown
      cases grown
      cases ran
    · rw [grow_of_admitted (by omega) (by omega) divides fit admitted] at grown
      obtain ⟨_, _, recorded, grown⟩ := of_bind_ok grown
      cases recorded
      obtain ⟨c, _, merged, _⟩ := of_bind_ok grown
      rw [start] at merged fit
      exact not_of_cramped_coalesce roomy blank least room divides fit admitted rfl merged
  · rw [if_neg fits] at needed
    cases needed
    cases ran

end Cramped

end Heap

namespace Request

variable {A : Type} [Arena A] {arena : A} {config : Config} {journal : Array Entry} {h h' : Heap A}

omit [Arena A] in
theorem of_map_granted {step : HeapM A (Except HeapError Block)} {found : Option Block}
    (ran : (do return (← step).map some : HeapM A Answer) h = .ok (.ok found) h') :
    ∃ b, found = some b ∧ step h = .ok (.ok b) h' := by
  obtain ⟨granted, _, stepped, ran⟩ := Heap.of_bind_ok ran
  cases granted <;> cases ran
  exact ⟨_, rfl, stepped⟩

/-- No request gets a block from such a heap, and nothing but the journal changes. -/
theorem of_cramped_run {r : Request} {answer : Answer}
    (roomy : Arena.Roomy arena config.chunkSize) (blank : Memory.size arena = 0)
    (least : config.chunkSize = 8) (untargeted : r.target = none)
    (ran : r.run (Heap.fresh arena config journal) = .ok answer h') :
    (∃ entries, h' = Heap.fresh arena config entries) ∧
      ∀ leases, r.settle leases answer = leases := by
  have nothing : ∀ {size : Nat} {b : Block} {h' : Heap A},
      Heap.allocate size (Heap.fresh arena config journal) ≠ .ok (.ok b) h' :=
    fun allocated => Heap.not_of_cramped_allocate roomy blank least allocated
  cases answer with
  | error error =>
    obtain ⟨_, same⟩ := of_run_error ran
    exact ⟨⟨_, same⟩, fun leases => settle_error leases r⟩
  | ok found =>
    cases r with
    | allocate size =>
      obtain ⟨_, _, allocated⟩ := of_map_granted ran
      exact (nothing allocated).elim
    | allocateZeroed count size =>
      obtain ⟨_, _, zeroed⟩ := of_map_granted ran
      obtain ⟨_, _, allocated⟩ := Heap.of_allocateZeroed_ok zeroed
      exact (nothing allocated).elim
    | release block =>
      cases untargeted
      cases ran
      exact ⟨⟨_, rfl⟩, fun _ => rfl⟩
    | reallocate block size =>
      cases untargeted
      simp only [run, Heap.reallocate] at ran
      split at ran
      · cases ran
        exact ⟨⟨_, rfl⟩, fun _ => rfl⟩
      · obtain ⟨_, _, allocated⟩ := of_map_granted ran
        exact (nothing allocated).elim
    | write block start bytes => cases untargeted

end Request

end SegregatedFit
