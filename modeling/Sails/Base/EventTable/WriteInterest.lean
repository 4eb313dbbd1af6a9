import Sails.Base.EventTable

/-!
# What the event loop has registered for writing

- `EventLoop.wantsWrite`: epoll is to report the descriptor writable
- `EventLoop.Registers`: what one operation may do to the registrations
- `addEvent_registers`, `modEvOnly_registers`, `eventStop_registers`: what they do
-/

namespace Sails.Base

open TransitionRun (Fault ok_of_bind)

namespace EventLoop

/-! ## What the operations register -/

/-- The kernel has been asked to report the descriptor writable. -/
def wantsWrite (l : EventLoop) (fd : Int) : Bool :=
  match l.epoll fd with
  | some mask => decide (mask &&& epollOut ≠ 0)
  | none => false

/-- Every registration is as before or gone, but for one that may have got this mask. -/
def Registers (l l' : EventLoop) (fd : Int) (mask : Mask) : Prop :=
  ∀ fd', l'.epoll fd' = l.epoll fd' ∨ l'.epoll fd' = none ∨ fd' = fd ∧ l'.epoll fd' = some mask

variable {l l' : EventLoop} {fd notify : Int} {mask : Mask} {ev : Event} {ok : Bool}

theorem Registers.of_eq (h : l'.epoll = l.epoll) : Registers l l' fd mask :=
  fun fd' => .inl (congrFun h fd')

theorem Registers.wantsWrite (h : Registers l l' fd mask)
    (hmask : mask &&& epollOut ≠ 0 → fd = notify)
    (hl : ∀ fd', l.wantsWrite fd' = true → fd' = notify) (fd' : Int)
    (hwants : l'.wantsWrite fd' = true) : fd' = notify := by
  unfold EventLoop.wantsWrite at hwants
  rcases h fd' with hsame | hnone | ⟨rfl, hnew⟩
  · rw [hsame] at hwants
    exact hl fd' hwants
  · rw [hnone] at hwants
    cases hwants
  · rw [hnew] at hwants
    exact hmask (of_decide_eq_true hwants)

theorem refreshEvents_epoll (h : l.refreshEvents fd = .ok l') : l'.epoll = l.epoll := by
  obtain ⟨-, h⟩ := ok_of_load h
  obtain ⟨es, -, h⟩ := ok_of_bind h
  cases h
  rfl

theorem linkEvent_epoll (h : l.linkEvent ev = .ok (l', ok)) : l'.epoll = l.epoll := by
  obtain ⟨-, h⟩ := ok_of_load h
  split at h
  · split at h
    · obtain ⟨es, -, h⟩ := ok_of_bind h
      split at h
      · cases h
      · cases h
        rfl
    · cases h
      rfl
  · cases h
    rfl

theorem addInside_registers (h : l.addInside ev true = .ok (l', ok)) :
    Registers l l' ev.fd (epollEvents ev.events) := by
  unfold addInside at h
  simp only [bind, Except.bind] at h
  split at h
  · cases h
  · rename_i linked hlink
    obtain ⟨l₁, needAdd⟩ := linked
    have hepoll₁ := linkEvent_epoll hlink
    dsimp only at h
    split at h
    · split at h
      · cases h
        exact .of_eq hepoll₁
      · rename_i epoll hadd
        split at h
        · cases h
        · rename_i l₂ hrefresh
          cases h
          have hepoll₂ := refreshEvents_epoll hrefresh
          have hupdate : epoll = Function.update l₁.epoll ev.fd (some (epollEvents ev.events)) := by
            unfold Epoll.add at hadd
            split at hadd
            · cases hadd
            · exact (Option.some.inj hadd).symm
          intro fd'
          rw [hepoll₂, ← hepoll₁]
          dsimp only
          rw [hupdate]
          by_cases hfd : fd' = ev.fd
          · subst hfd
            exact .inr (.inr ⟨rfl, Function.update_self ..⟩)
          · exact .inl (Function.update_of_ne hfd ..)
    · split at h
      · cases h
      · rename_i l₂ hrefresh
        cases h
        exact .of_eq ((refreshEvents_epoll hrefresh).trans hepoll₁)

theorem addEvent_registers {reallocOk : Bool} (h : l.addEvent ev true reallocOk = .ok (l', ok)) :
    Registers l l' ev.fd (epollEvents ev.events) := by
  obtain ⟨r, hroom, h⟩ := ok_of_bind h
  cases r with
  | none =>
    cases h
    exact .of_eq rfl
  | some grown =>
    obtain ⟨-, hepoll, -⟩ := makeRoom_spec hroom
    have hreg := addInside_registers h
    unfold Registers at hreg ⊢
    rw [hepoll] at hreg
    exact hreg

theorem modEvOnly_registers (h : l.modEvOnly ev = .ok (l', ok)) :
    Registers l l' ev.fd (epollEvents ev.events) := by
  unfold modEvOnly at h
  split at h
  · cases h
    exact .of_eq rfl
  · obtain ⟨-, h⟩ := ok_of_load h
    split at h
    · split at h
      · cases h
        exact .of_eq rfl
      · rename_i epoll hmod
        cases h
        have hupdate : epoll = Function.update l.epoll ev.fd (some (epollEvents ev.events)) := by
          unfold Epoll.mod at hmod
          split at hmod
          · exact (Option.some.inj hmod).symm
          · cases hmod
        intro fd'
        dsimp only
        rw [hupdate]
        by_cases hfd : fd' = ev.fd
        · subst hfd
          exact .inr (.inr ⟨rfl, Function.update_self ..⟩)
        · exact .inl (Function.update_of_ne hfd ..)
    · cases h
      exact .of_eq rfl

theorem eventStop_registers (h : l.eventStop fd = .ok (l', ok)) (mask : Mask) :
    Registers l l' fd mask := by
  obtain ⟨-, h⟩ := ok_of_load h
  split at h
  · obtain ⟨es, -, h⟩ := ok_of_bind h
    cases h
    intro fd'
    dsimp only [store]
    unfold Epoll.del
    split
    · by_cases hfd : fd' = fd
      · subst hfd
        exact .inr (.inl (Function.update_self ..))
      · exact .inl (Function.update_of_ne hfd ..)
    · exact .inl rfl
  · cases h
    exact .of_eq rfl

end EventLoop

end Sails.Base
