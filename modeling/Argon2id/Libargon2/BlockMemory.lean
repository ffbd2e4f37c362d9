import Argon2id.Lib.SharedMemory
import Argon2id.Libargon2.Block

/-!
# Libargon2.BlockMemory — blocks in the shared memory

The memory of an instance as 64-bit words, and the programs that read and write it block by block, one
word at a time in the order of the source.

- `run_copyBlockFrom`, `run_xorBlockFrom`, `run_copyBlockTo`, `run_xorBlockTo`, `run_loadBlockTo`: their
  effects
- `run_fillBlockAt`: `fill_block` in the memory computes `fillBlock`
- `within_fillBlockAt`, `oblivious_fillBlockAt`: what it accesses
-/

namespace Argon2id

open SharedMemory

/-! ## Words of blocks -/

/-- The memory of an instance. -/
abbrev Memory := Nat → UInt64

/-- Where word `i` of a block is. -/
def word (block i : Nat) : Nat :=
  128 * block + i

def blockAt (m : Memory) (block : Nat) : Block :=
  Vector.ofFn fun i : Fin 128 => m (word block i)

/-- `b.v[i]` of a local block. -/
def getWord (b : Block) (i : Nat) : UInt64 :=
  b.get (Fin.ofNat 128 i)

def setWord (b : Block) (i : Nat) (w : UInt64) : Block :=
  b.set (Fin.ofNat 128 i) w

/-- The words of a block. -/
def words (block : Nat) : Set Nat :=
  {a | a / 128 = block}

def setBlock (m : Memory) (block : Nat) (b : Block) : Memory := fun a =>
  if a / 128 = block then getWord b a else m a

section Words

variable {block block' i : Nat} {m : Memory} {b : Block}

theorem word_div (h : i < 128) : word block i / 128 = block := by
  rw [word]
  omega

theorem word_mem_words (h : i < 128) : word block i ∈ words block :=
  word_div h

theorem blockAt_congr {m m' : Memory} (h : ∀ a ∈ words block, m a = m' a) :
    blockAt m block = blockAt m' block := by
  refine Vector.ext fun i hi => ?_
  rw [blockAt, blockAt, Vector.getElem_ofFn, Vector.getElem_ofFn]
  exact h _ (word_mem_words hi)

theorem getWord_eq (h : i < 128) (b : Block) : getWord b i = b[i] :=
  congrArg b.get (Fin.ext (Nat.mod_eq_of_lt h))

theorem getElem_setWord (h : i < 128) (b : Block) (w : UInt64) {j : Nat} (hj : j < 128) :
    (setWord b i w)[j] = if i = j then w else b[j] := by
  have hmod : (Fin.ofNat 128 i).val = i := Nat.mod_eq_of_lt h
  rw [setWord, Vector.getElem_set]
  simp only [hmod]

theorem setBlock_word (h : i < 128) : setBlock m block b (word block i) = b[i] := by
  rw [setBlock, if_pos (word_div h), ← getWord_eq h]
  refine congrArg b.get (Fin.ext ?_)
  rw [Fin.val_ofNat, Fin.val_ofNat, word]
  omega

theorem setBlock_of_not_mem {a : Nat} (h : a ∉ words block) : setBlock m block b a = m a :=
  if_neg h

@[simp] theorem blockAt_setBlock_self : blockAt (setBlock m block b) block = b := by
  refine Vector.ext fun i hi => ?_
  rw [blockAt, Vector.getElem_ofFn]
  exact setBlock_word hi

theorem blockAt_setBlock_of_ne (h : block' ≠ block) :
    blockAt (setBlock m block b) block' = blockAt m block' := by
  refine blockAt_congr fun a ha => setBlock_of_not_mem fun ha' => h ?_
  exact ha.symm.trans ha'

@[simp] theorem setBlock_setBlock (b' : Block) :
    setBlock (setBlock m block b) block b' = setBlock m block b' := by
  refine funext fun a => ?_
  by_cases h : a / 128 = block
  · simp only [setBlock, if_pos h]
  · simp only [setBlock, if_neg h]

end Words

/-! ## The programs -/

/-- `copy_block` into a local block; what was in it does not matter. -/
def copyBlockFrom (src : Nat) : Prog Nat UInt64 Block :=
  loop (fun i b => do
    let w ← get (word src i)
    pure (setWord b i w)) 0 128 (initBlockValue 0)

/-- `xor_block` onto a local block. -/
def xorBlockFrom (dst : Block) (src : Nat) : Prog Nat UInt64 Block :=
  loop (fun i b => do
    let w ← get (word src i)
    pure (setWord b i (getWord b i ^^^ w))) 0 128 dst

/-- `copy_block` from a local block. -/
def copyBlockTo (dst : Nat) (src : Block) : Prog Nat UInt64 Unit :=
  loop (fun i _ => set (word dst i) (getWord src i)) 0 128 ()

/-- `xor_block` of a local block. -/
def xorBlockTo (dst : Nat) (src : Block) : Prog Nat UInt64 Unit :=
  loop (fun i _ => do
    let w ← get (word dst i)
    set (word dst i) (w ^^^ getWord src i)) 0 128 ()

/-- `load_block` -/
def loadBlockTo (dst : Nat) (input : Bytes) : Prog Nat UInt64 Unit :=
  loop (fun i _ => set (word dst i) (load64 (input.drop (i * 8)))) 0 128 ()

/-- `fill_block` on blocks in the memory. -/
def fillBlockAt (prevBlock refBlock nextBlock : Nat) (withXor : Bool) : Prog Nat UInt64 Unit := do
  let blockR ← copyBlockFrom refBlock
  let blockR ← xorBlockFrom blockR prevBlock
  let blockTmp ← if withXor then xorBlockFrom blockR nextBlock else pure blockR
  let blockR := mixBlock blockR
  copyBlockTo nextBlock blockTmp
  xorBlockTo nextBlock blockR

/-! ## Effects -/

section Run

/-- A loop over the words of a local block. -/
theorem run_local {body : Nat → Block → Prog Nat UInt64 Block} {g : Nat → UInt64 → UInt64} (m : Memory)
    (hbody : ∀ i b, (body i b).run m = (setWord b i (g i (getWord b i)), m)) (b : Block) :
    (loop body 0 128 b).run m = (Vector.ofFn fun i : Fin 128 => g i (getWord b i), m) := by
  have hstep : ∀ j b' m', 0 ≤ j → j < 0 + 128 →
      (m' = m ∧ ∀ i (hi : i < 128), b'[i] = if i < j then g i b[i] else b[i]) →
      ((body j b').run m').2 = m ∧
        ∀ i (hi : i < 128), ((body j b').run m').1[i] = if i < j + 1 then g i b[i] else b[i] := by
    rintro j b' m' - hj ⟨rfl, hb'⟩
    rw [Nat.zero_add] at hj
    rw [hbody, getWord_eq hj]
    refine ⟨rfl, fun i hi => ?_⟩
    dsimp only
    rw [getElem_setWord hj _ _ hi]
    by_cases hij : j = i
    · subst hij
      rw [if_pos rfl, if_pos (Nat.lt_succ_self j), hb' j hj, if_neg (Nat.lt_irrefl j)]
    · rw [if_neg hij, hb' i hi]
      by_cases hlt : i < j
      · rw [if_pos hlt, if_pos (by omega)]
      · rw [if_neg hlt, if_neg (by omega)]
  have hloop := run_loop hstep (s := b) ⟨rfl, fun i hi => rfl⟩
  refine Prod.ext (Vector.ext fun i hi => ?_) hloop.1
  rw [Vector.getElem_ofFn, hloop.2 i hi, if_pos (by omega), getWord_eq hi]

/-- A loop over the words of a block in the memory. -/
theorem run_stored {body : Nat → Unit → Prog Nat UInt64 Unit} {dst : Nat} {g : Nat → UInt64 → UInt64}
    (hbody : ∀ i u m, ((body i u).run m).2 =
      Function.update m (word dst i) (g i (m (word dst i)))) (m : Memory) :
    ((loop body 0 128 ()).run m).2 =
      setBlock m dst (Vector.ofFn fun i : Fin 128 => g i (m (word dst i))) := by
  have hstep : ∀ j (u : Unit) m', 0 ≤ j → j < 0 + 128 →
      (∀ a, m' a = if a / 128 = dst ∧ a % 128 < j then g (a % 128) (m a) else m a) →
      ∀ a, ((body j u).run m').2 a =
        if a / 128 = dst ∧ a % 128 < j + 1 then g (a % 128) (m a) else m a := by
    intro j u m' _ hj hm' a
    rw [hbody]
    by_cases ha : a = word dst j
    · have hdiv : a / 128 = dst ∧ a % 128 = j := by
        rw [word] at ha
        omega
      have hold : m' (word dst j) = m a := by
        rw [← ha, hm' a, if_neg (by omega)]
      rw [ha, Function.update_self, hold, ← ha, if_pos (by omega), hdiv.2]
    · have hne : ¬ (a / 128 = dst ∧ a % 128 = j) := by
        rw [word] at ha
        omega
      rw [Function.update_of_ne ha, hm' a]
      by_cases hlt : a / 128 = dst ∧ a % 128 < j
      · rw [if_pos hlt, if_pos (by omega)]
      · rw [if_neg hlt, if_neg (by omega)]
  have hloop := run_loop hstep (s := ()) (m := m) fun a => (if_neg (by omega)).symm
  refine funext fun a => (hloop a).trans ?_
  by_cases ha : a / 128 = dst
  · have hword : a = word dst (a % 128) := by
      rw [word]
      omega
    have hlt : a % 128 < 128 := Nat.mod_lt a (by decide)
    rw [if_pos (by omega), hword, setBlock_word hlt, Vector.getElem_ofFn, ← hword]
  · rw [if_neg (by omega), setBlock, if_neg ha]

theorem run_copyBlockFrom (src : Nat) (m : Memory) :
    (copyBlockFrom src).run m = (blockAt m src, m) :=
  run_local (g := fun i _ => m (word src i)) m (fun _ _ => rfl) (initBlockValue 0)

theorem run_xorBlockFrom (dst : Block) (src : Nat) (m : Memory) :
    (xorBlockFrom dst src).run m = (xorBlock dst (blockAt m src), m) := by
  refine (run_local (g := fun i w => w ^^^ m (word src i)) m (fun _ _ => rfl) dst).trans ?_
  refine Prod.ext (Vector.ext fun i hi => ?_) rfl
  simp only [xorBlock, blockAt, Vector.getElem_ofFn, Fin.getElem_fin, getWord_eq hi]

theorem run_copyBlockTo (dst : Nat) (src : Block) (m : Memory) :
    ((copyBlockTo dst src).run m).2 = setBlock m dst src := by
  refine (run_stored (g := fun i _ => getWord src i) (fun _ _ _ => rfl) m).trans ?_
  refine congrArg (setBlock m dst) (Vector.ext fun i hi => ?_)
  rw [Vector.getElem_ofFn, getWord_eq hi]

theorem run_xorBlockTo (dst : Nat) (src : Block) (m : Memory) :
    ((xorBlockTo dst src).run m).2 = setBlock m dst (xorBlock (blockAt m dst) src) := by
  refine (run_stored (g := fun i w => w ^^^ getWord src i) (fun _ _ _ => rfl) m).trans ?_
  refine congrArg (setBlock m dst) (Vector.ext fun i hi => ?_)
  rw [Vector.getElem_ofFn, getWord_eq hi]
  simp only [xorBlock, blockAt, Vector.getElem_ofFn, Fin.getElem_fin]

theorem run_loadBlockTo (dst : Nat) (input : Bytes) (m : Memory) :
    ((loadBlockTo dst input).run m).2 = setBlock m dst (loadBlock input) :=
  run_stored (g := fun i _ => load64 (input.drop (i * 8))) (fun _ _ _ => rfl) m

/-- `fill_block` stores the new block, also where it replaces one of the blocks it is made of. -/
theorem run_fillBlockAt (prevBlock refBlock nextBlock : Nat) (withXor : Bool) (m : Memory) :
    ((fillBlockAt prevBlock refBlock nextBlock withXor).run m).2 =
      setBlock m nextBlock
        (fillBlock (blockAt m prevBlock) (blockAt m refBlock) (blockAt m nextBlock) withXor) := by
  cases withXor
  · simp only [fillBlockAt, run_bind, run_copyBlockFrom, run_xorBlockFrom, run_copyBlockTo,
      run_xorBlockTo, if_neg Bool.false_ne_true, run_pure, blockAt_setBlock_self, setBlock_setBlock,
      fillBlock]
  · simp only [fillBlockAt, run_bind, run_copyBlockFrom, run_xorBlockFrom, run_copyBlockTo,
      run_xorBlockTo, if_true, blockAt_setBlock_self, setBlock_setBlock, fillBlock]

end Run

/-! ## Accesses -/

section Within

variable {W S : Set Nat} {prevBlock refBlock nextBlock src dst : Nat} {b : Block}

theorem within_copyBlockFrom (h : words src ⊆ S) :
    Within W S (fun _ => True) (copyBlockFrom src) S :=
  Within.loop (K := fun _ => S) (I := fun _ _ => True) (fun _ _ _ hj _ =>
    (Within.get (h (word_mem_words hj)) fun _ => trivial).bind fun _ _ =>
      Within.pure (Set.Subset.refl S) trivial) trivial

theorem within_xorBlockFrom (h : words src ⊆ S) :
    Within W S (fun _ => True) (xorBlockFrom b src) S :=
  Within.loop (K := fun _ => S) (I := fun _ _ => True) (fun _ _ _ hj _ =>
    (Within.get (h (word_mem_words hj)) fun _ => trivial).bind fun _ _ =>
      Within.pure (Set.Subset.refl S) trivial) trivial

/-- A loop that writes the words of a block one after the other. -/
theorem within_stored {f : Nat → UInt64} (h : words dst ⊆ W) :
    Within W (S ∪ words dst) (fun _ => True)
      (loop (fun i (_ : Unit) => set (word dst i) (f i)) 0 128 ()) S := by
  have hstep : ∀ j (_ : Unit), 0 ≤ j → j < 0 + 128 → True →
      Within W (S ∪ {a | a / 128 = dst ∧ a % 128 < j + 1}) (fun _ => True)
        (set (word dst j) (f j)) (S ∪ {a | a / 128 = dst ∧ a % 128 < j}) := by
    intro j _ _ hj _
    refine (Within.set (f j) (h (word_mem_words hj)) trivial).mono (Set.Subset.refl W)
      (Set.Subset.refl _) ?_ fun _ h => h
    rintro a (ha | ⟨hdiv, hmod⟩)
    · exact Or.inr (Or.inl ha)
    · by_cases hlt : a % 128 < j
      · exact Or.inr (Or.inr ⟨hdiv, hlt⟩)
      · refine Or.inl ?_
        rw [word]
        omega
  have hloop := Within.loop (K := fun j => S ∪ {a | a / 128 = dst ∧ a % 128 < j})
    (I := fun _ _ => True) (s := ()) hstep trivial
  refine hloop.mono (Set.Subset.refl W) ?_ ?_ fun _ h => h
  · rintro a (ha | ⟨_, hlt⟩)
    · exact ha
    · exact absurd hlt (Nat.not_lt_zero _)
  · rintro a (ha | ha)
    · exact Or.inl ha
    · exact Or.inr ⟨ha, Nat.mod_lt a (by decide)⟩

theorem within_xorBlockTo (hW : words dst ⊆ W) (hS : words dst ⊆ S) :
    Within W S (fun _ => True) (xorBlockTo dst b) S :=
  Within.loop (K := fun _ => S) (I := fun _ _ => True) (fun _ _ _ hj _ =>
    (Within.get (hS (word_mem_words hj)) fun _ => trivial).bind fun _ _ =>
      (Within.set _ (hW (word_mem_words hj)) trivial).mono (Set.Subset.refl W) (Set.Subset.refl S)
        (Set.subset_insert _ S) fun _ h => h) trivial

/-- `fill_block` reads the blocks it is made of, and the old contents only to combine them with the new
ones. -/
theorem within_fillBlockAt {withXor : Bool} (hprev : words prevBlock ⊆ S) (href : words refBlock ⊆ S)
    (hnext : words nextBlock ⊆ W) (hxor : withXor = true → words nextBlock ⊆ S) :
    Within W (S ∪ words nextBlock) (fun _ => True)
      (fillBlockAt prevBlock refBlock nextBlock withXor) S := by
  have hstore : ∀ tmp R : Block, Within W (S ∪ words nextBlock) (fun _ => True)
      (copyBlockTo nextBlock tmp >>= fun _ => xorBlockTo nextBlock R) S := fun tmp R =>
    (within_stored hnext).bind fun _ _ => within_xorBlockTo hnext Set.subset_union_right
  refine (within_copyBlockFrom href).bind fun _ _ => (within_xorBlockFrom hprev).bind fun _ _ => ?_
  cases withXor
  · exact hstore _ _
  · exact (within_xorBlockFrom (hxor rfl)).bind fun _ _ => hstore _ _

end Within

/-! ## The accesses of `fill_block` are known beforehand -/

section Oblivious

variable {prevBlock refBlock nextBlock src dst : Nat} {b : Block}

/-- One access to each word of a block, in order. -/
def blockAccesses (block : Nat) (write : Bool) : List (Nat × Bool) :=
  (List.range' 0 128).flatMap fun i => [(word block i, write)]

/-- A block is read word by word, and each word is written back. -/
def updateAccesses (block : Nat) : List (Nat × Bool) :=
  (List.range' 0 128).flatMap fun i => [(word block i, false), (word block i, true)]

def fillAccesses (prevBlock refBlock nextBlock : Nat) (withXor : Bool) : List (Nat × Bool) :=
  blockAccesses refBlock false ++ (blockAccesses prevBlock false ++
    ((if withXor then blockAccesses nextBlock false else []) ++
      (blockAccesses nextBlock true ++ updateAccesses nextBlock)))

theorem oblivious_copyBlockFrom :
    Oblivious (fun _ => True) (copyBlockFrom src) (blockAccesses src false) :=
  Oblivious.loop (I := fun _ _ => True) (fun j _ _ _ _ =>
    (Oblivious.get (word src j) fun _ => trivial).bind fun _ _ => Oblivious.pure trivial) trivial

theorem oblivious_xorBlockFrom :
    Oblivious (fun _ => True) (xorBlockFrom b src) (blockAccesses src false) :=
  Oblivious.loop (I := fun _ _ => True) (fun j _ _ _ _ =>
    (Oblivious.get (word src j) fun _ => trivial).bind fun _ _ => Oblivious.pure trivial) trivial

theorem oblivious_copyBlockTo :
    Oblivious (fun _ => True) (copyBlockTo dst b) (blockAccesses dst true) :=
  Oblivious.loop (I := fun _ _ => True) (fun j _ _ _ _ => Oblivious.set (word dst j) _ trivial)
    trivial

theorem oblivious_xorBlockTo :
    Oblivious (fun _ => True) (xorBlockTo dst b) (updateAccesses dst) :=
  Oblivious.loop (I := fun _ _ => True) (fun j _ _ _ _ =>
    (Oblivious.get (word dst j) fun _ => trivial).bind fun _ _ =>
      Oblivious.set (word dst j) _ trivial) trivial

/-- Which words `fill_block` accesses depends on the three blocks only. -/
theorem oblivious_fillBlockAt (withXor : Bool) :
    Oblivious (fun _ => True) (fillBlockAt prevBlock refBlock nextBlock withXor)
      (fillAccesses prevBlock refBlock nextBlock withXor) := by
  have hstore : ∀ tmp R : Block, Oblivious (fun _ => True)
      (copyBlockTo nextBlock tmp >>= fun _ => xorBlockTo nextBlock R)
      (blockAccesses nextBlock true ++ updateAccesses nextBlock) := fun tmp R =>
    oblivious_copyBlockTo.bind fun _ _ => oblivious_xorBlockTo
  refine oblivious_copyBlockFrom.bind fun _ _ => oblivious_xorBlockFrom.bind fun _ _ => ?_
  cases withXor
  · exact hstore _ _
  · exact oblivious_xorBlockFrom.bind fun _ _ => hstore _ _

end Oblivious

end Argon2id
