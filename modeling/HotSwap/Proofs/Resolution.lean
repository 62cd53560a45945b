import HotSwap.Proofs.ConstantPool
import HotSwap.Redefinition.Change

/-! # Resolution cannot be seen

A look-up of a class or a string takes the kept text if the entry is resolved, and
follows the entry if it is not. Since a kept text is always the one to which the entry
leads, both ways give the same answer. Resolving changes no look-up, and no comparison
depends on what was resolved. -/

namespace HotSwap

namespace ConstantPool

/-- The same entries, of which none is resolved. -/
def unresolved (pool : ConstantPool) : ConstantPool :=
  { pool with resolved := [] }

variable {pool later : ConstantPool} {index : UInt16}

theorem get?_congr (same : later.entries = pool.entries) : later.get? = pool.get? := by
  funext index
  rw [get?, get?, same]

namespace Sound

theorem unresolved (sound : pool.Sound) : pool.unresolved.Sound := by
  refine ⟨sound.entries, sound.next_le, ?_, sound.interned⟩
  intro index text kept
  cases kept

/-- The kept text of a class or string is the one that is found by following the entry. -/
theorem resolvedText?_eq (sound : pool.Sound) {link : UInt16}
    (entry : pool.get? index = some (.classRef link) ∨ pool.get? index = some (.string link)) :
    pool.resolvedText? index link = pool.text? link := by
  have followed : pool.linkedText? index = pool.text? link := by
    rcases entry with entry | entry <;> simp only [linkedText?, entry]
  unfold resolvedText?
  split
  · next text kept => rw [← followed, sound.resolved index text kept]
  · rfl

theorem className?_eq (sound : pool.Sound) (index : UInt16) :
    pool.className? index =
      match pool.get? index with
      | some (.classRef link) => pool.text? link
      | _ => none := by
  unfold className?
  cases entry : pool.get? index with
  | none => rfl
  | some constant =>
      cases constant with
      | classRef link => exact sound.resolvedText?_eq (.inl entry)
      | _ => rfl

theorem string?_eq (sound : pool.Sound) (index : UInt16) :
    pool.string? index =
      match pool.get? index with
      | some (.string link) => pool.text? link
      | _ => none := by
  unfold string?
  cases entry : pool.get? index with
  | none => rfl
  | some constant =>
      cases constant with
      | string link => exact sound.resolvedText?_eq (.inr entry)
      | _ => rfl

/-- Strings are found through the entries alone. -/
theorem string?_congr (sound : pool.Sound) (soundLater : later.Sound)
    (same : later.entries = pool.entries) : later.string? = pool.string? := by
  funext index
  simp only [soundLater.string?_eq, sound.string?_eq, text?, get?_congr same]

/-- What indices stand for is found through the entries alone. -/
theorem symbols_congr (sound : pool.Sound) (soundLater : later.Sound)
    (same : later.entries = pool.entries) : later.symbols = pool.symbols := by
  have entries := get?_congr same
  have classes : later.className? = pool.className? := by
    funext index
    simp only [soundLater.className?_eq, sound.className?_eq, text?, entries]
  have strings := sound.string?_congr soundLater same
  have members : later.member? = pool.member? := by
    funext index
    simp only [member?, nameAndType?, text?, entries, classes]
  have loadables : later.loadable? = pool.loadable? := by
    funext index
    simp only [loadable?, text?, entries, classes, strings, members]
  rw [symbols, symbols, classes, members, loadables]

end Sound

end ConstantPool

/-- Whether two versions come out of every comparison in the same way, as the old version and as
the new one. -/
structure Version.SameVerdicts (first second : Version) : Prop where
  equivalent : ∀ other : Version, first.equivalent other = second.equivalent other ∧
    other.equivalent first = other.equivalent second
  relocation : ∀ other : Version, first.relocation? other = second.relocation? other ∧
    other.relocation? first = other.relocation? second
  change : ∀ (mode : Mode) (other : Version),
    Version.compare mode first other = Version.compare mode second other ∧
      Version.compare mode other first = Version.compare mode other second

namespace ConstantPool

variable {pool later : ConstantPool}

/-- Resolving succeeds for classes and strings that lead to a text. -/
theorem resolve_eq_ok_iff (pool : ConstantPool) (index : UInt16) :
    ((PoolM.resolve index).run pool).1 = .ok () ↔
      ∃ link text, (pool.get? index = some (.classRef link) ∨
        pool.get? index = some (.string link)) ∧ pool.get? link = some (.utf8 text) := by
  have succeeds : ((PoolM.resolve index).run pool).1 = .ok () ↔
      ∃ text, pool.linkedText? index = some text := by
    rcases PoolM.resolve_run index pool with ⟨text, linked, run⟩ | ⟨missing, cause, run⟩
    · simp [run, linked]
    · simp [run, missing]
  simp only [succeeds, linkedText?_eq_some_iff, text?_eq_some_iff]
  exact exists_comm

theorem entries_resolve (pool : ConstantPool) (index : UInt16) :
    ((PoolM.resolve index).run pool).2.entries = pool.entries := by
  rcases PoolM.resolve_run index pool with ⟨text, -, run⟩ | ⟨-, cause, run⟩ <;> rw [run]

/-- Whatever was done with a pool, its look-ups give what they would give if nothing were resolved.
Resolving an entry succeeds if it is a class or a string that leads to a text, and changes no
look-up in any case. Pools with the same entries give the same verdicts. -/
theorem Reachable.transparent (reachable : pool.Reachable) :
    (pool.unresolved.className? = pool.className? ∧ pool.unresolved.string? = pool.string? ∧
      pool.unresolved.symbols = pool.symbols) ∧
    (∀ index : UInt16,
      (((PoolM.resolve index).run pool).1 = .ok () ↔
        ∃ link text, (pool.get? index = some (.classRef link) ∨
          pool.get? index = some (.string link)) ∧ pool.get? link = some (.utf8 text)) ∧
      ((PoolM.resolve index).run pool).2.className? = pool.className? ∧
      ((PoolM.resolve index).run pool).2.string? = pool.string? ∧
      ((PoolM.resolve index).run pool).2.symbols = pool.symbols) ∧
    ∀ (later : ConstantPool) (body : Body), later.Reachable → later.entries = pool.entries →
      (Version.ofPool body later).SameVerdicts (Version.ofPool body pool) := by
  have sound := reachable.sound
  have unchanged {later : ConstantPool} (soundLater : later.Sound)
      (same : later.entries = pool.entries) : later.className? = pool.className? ∧
        later.string? = pool.string? ∧ later.symbols = pool.symbols := by
    have symbols := sound.symbols_congr soundLater same
    exact ⟨congrArg Symbols.className? symbols, sound.string?_congr soundLater same, symbols⟩
  refine ⟨unchanged sound.unresolved rfl, ?_, ?_⟩
  · intro index
    have soundLater := (PoolM.keeps_resolve index pool sound).1
    exact ⟨resolve_eq_ok_iff pool index, unchanged soundLater (entries_resolve pool index)⟩
  · intro later body reachableLater same
    have symbols := sound.symbols_congr reachableLater.sound same
    rw [Version.ofPool, Version.ofPool, symbols]
    exact ⟨fun _ => ⟨rfl, rfl⟩, fun _ => ⟨rfl, rfl⟩, fun _ _ => ⟨rfl, rfl⟩⟩

/-- A class whose name is added after it: the first attempt to resolve it fails, the second one
succeeds. -/
theorem transparent_of_late_name :
    let plain : ConstantPool := Call.after (.request (.text "A"))
      (Call.after (.resolve 1) (Call.after (.append (.classRef 2)) .empty))
    let kept : ConstantPool := Call.after (.resolve 1) plain
    plain.isResolved 1 = false ∧ kept.isResolved 1 = true ∧ kept.className? 1 = some "A" ∧
      kept.unresolved.className? 1 = some "A" ∧ kept.symbols = plain.symbols ∧
      ∀ body : Body, (Version.ofPool body kept).SameVerdicts (Version.ofPool body plain) := by
  intro plain kept
  have before : plain.Reachable := .call (.call (.call .empty _) _) _
  have after : kept.Reachable := before.call _
  have name : kept.className? 1 = some "A" := by decide +kernel
  refine ⟨by decide +kernel, by decide +kernel, name, ?_, ?_, ?_⟩
  · rw [after.transparent.1.1, name]
  · exact (before.transparent.2.1 1).2.2.2
  · exact fun body => before.transparent.2.2 kept body after (entries_resolve plain 1)

end ConstantPool

end HotSwap
