import Mathlib.Data.Set.Insert
import Mathlib.Order.Basic

namespace Foculus.Data

/-! # Last-writer-wins registers whose tombstones are dropped

A register holds a version or nothing.  Of two versions the one with the larger stamp wins.
A version that is not live is a tombstone: whoever only looks at live versions cannot tell
it from nothing.  So a tombstone may be dropped, but then an older live version that is
merged in later is seen again.
-/

section Join

variable {V S : Type*} [LinearOrder S] (stamp : V → S)

/-- What a register holds once a version has been merged into it. -/
def lww (held offered : Option V) : Option V :=
  match held, offered with
  | held, none => held
  | none, some version => some version
  | some existing, some version =>
      if stamp existing < stamp version then some version else some existing

@[simp] theorem lww_none (held : Option V) : lww stamp held none = held := by
  cases held <;> rfl

@[simp] theorem none_lww (offered : Option V) : lww stamp none offered = offered := by
  cases offered <;> rfl

theorem lww_newer {existing version : V} (newer : stamp existing < stamp version) :
    lww stamp (some existing) (some version) = some version := if_pos newer

theorem lww_older {existing version : V} (older : stamp version ≤ stamp existing) :
    lww stamp (some existing) (some version) = some existing := if_neg (not_lt.mpr older)

theorem lww_eq_some {held offered : Option V} {version : V}
    (result : lww stamp held offered = some version) :
    held = some version ∨ offered = some version := by
  cases held with
  | none => exact .inr (by rwa [none_lww] at result)
  | some existing =>
      cases offered with
      | none => exact .inl result
      | some new =>
          by_cases newer : stamp existing < stamp new
          · exact .inr (by rwa [lww_newer stamp newer] at result)
          · exact .inl (by rwa [lww_older stamp (not_lt.mp newer)] at result)

end Join

section Expiry

variable {V S : Type*} [LinearOrder S] (stamp : V → S) (live : V → Prop)

/-- An expired tombstone: every live version about is newer. -/
structure Outlived (expired about : Set V) (tomb : V) : Prop where
  dead : ¬ live tomb
  old : tomb ∈ expired
  newer : ∀ version ∈ about, live version → stamp tomb < stamp version

/-- What a register holds when expired tombstones may have been dropped, against what it
holds when none has been. -/
inductive Shows (expired about : Set V) (shown : Option V) : Option V → Prop where
  | same : Shows expired about shown shown
  | dropped {tomb : V} (outlived : Outlived stamp live expired about tomb)
      (below : ∀ version, shown = some version → ¬ live version ∧ stamp version ≤ stamp tomb) :
      Shows expired about shown (some tomb)

variable {stamp live} {expired about : Set V} {shown full : Option V}

/-- Both have the same live version. -/
theorem Shows.live_iff (shows : Shows stamp live expired about shown full) (version : V) :
    shown = some version ∧ live version ↔ full = some version ∧ live version := by
  cases shows with
  | same => exact .rfl
  | dropped outlived below =>
      refine ⟨fun ⟨held, alive⟩ => absurd alive (below version held).1, ?_⟩
      rintro ⟨held, alive⟩
      cases held
      exact absurd alive outlived.dead

/-- Where a tombstone is seen there is one, perhaps a later one. -/
theorem Shows.tombstone {tomb : V} (shows : Shows stamp live expired about (some tomb) full)
    (dead : ¬ live tomb) : ∃ kept, full = some kept ∧ ¬ live kept ∧ stamp tomb ≤ stamp kept := by
  cases shows with
  | same => exact ⟨tomb, rfl, dead, le_rfl⟩
  | dropped outlived below => exact ⟨_, rfl, outlived.dead, (below tomb rfl).2⟩

theorem Outlived.mono {wider fewer : Set V} {tomb : V}
    (outlived : Outlived stamp live expired about tomb) (wide : expired ⊆ wider)
    (few : ∀ version ∈ fewer, live version → version ∈ about ∨ stamp tomb < stamp version) :
    Outlived stamp live wider fewer tomb where
  dead := outlived.dead
  old := wide outlived.old
  newer version member alive := (few version member alive).elim
    (fun known => outlived.newer version known alive) id

theorem Shows.mono {wider fewer : Set V} (shows : Shows stamp live expired about shown full)
    (wide : expired ⊆ wider) (few : ∀ tomb ∈ expired, ∀ version ∈ fewer, live version →
      version ∈ about ∨ stamp tomb < stamp version) :
    Shows stamp live wider fewer shown full := by
  cases shows with
  | same => exact .same
  | dropped outlived below =>
      exact .dropped (outlived.mono wide (few _ outlived.old)) below

/-- A tombstone that every live version outlives may be dropped. -/
theorem Shows.drop (shows : Shows stamp live expired about shown full) {tomb : V}
    (held : shown = some tomb) (outlived : Outlived stamp live expired about tomb) :
    Shows stamp live expired about none full := by
  cases shows with
  | same =>
      rw [held]
      exact .dropped outlived (by simp)
  | dropped other below => exact .dropped other (by simp)

/-- Sending only what is newer keeps the registers alike. -/
theorem Shows.filter (shows : Shows stamp live expired about shown full) {passes : V → Bool}
    (upward : ∀ early late, stamp early ≤ stamp late → passes early = true → passes late = true) :
    Shows stamp live expired about (shown.filter passes) (full.filter passes) := by
  cases shows with
  | same => exact .same
  | @dropped tomb outlived below =>
      rw [Option.filter_some]
      split_ifs with sent
      · exact .dropped outlived fun version held => below version (Option.filter_eq_some_iff.mp held).1
      · have nothing : shown.filter passes = none := by
          refine Option.filter_eq_none_iff.mpr fun version held pass => sent ?_
          exact upward version tomb (below version held).2 pass
        rw [nothing]
        exact .same

/-- Merging keeps the registers alike, as long as the versions that meet are about. -/
theorem Shows.lww {offered offeredFull : Option V}
    (shows : Shows stamp live expired about shown full)
    (offers : Shows stamp live expired about offered offeredFull)
    (shownAbout : ∀ version, shown = some version → version ∈ about)
    (offeredAbout : ∀ version, offered = some version → version ∈ about) :
    Shows stamp live expired about (lww stamp shown offered) (lww stamp full offeredFull) := by
  cases shows with
  | same =>
      cases offers with
      | same => exact .same
      | @dropped tomb outlived below =>
          cases shown with
          | none =>
              rw [none_lww, none_lww]
              exact .dropped outlived below
          | some existing =>
              by_cases newer : stamp existing < stamp tomb
              · -- A live version would be newer than the tombstone.
                have dead : ¬ live existing := fun alive =>
                  lt_asymm newer (outlived.newer existing (shownAbout existing rfl) alive)
                rw [lww_newer stamp newer]
                refine .dropped outlived fun version result => ?_
                rcases lww_eq_some stamp result with here | there
                · cases here
                  exact ⟨dead, newer.le⟩
                · exact below version there
              · rw [lww_older stamp (not_lt.mp newer)]
                cases offered with
                | none => exact .same
                | some version =>
                    rw [lww_older stamp ((below version rfl).2.trans (not_lt.mp newer))]
                    exact .same
  | @dropped tomb outlived below =>
      have joined (other : V) : ∀ version, Data.lww stamp shown (some other) = some version →
          (¬ live version ∧ stamp version ≤ stamp tomb) ∨ version = other := by
        intro version result
        rcases lww_eq_some stamp result with here | there
        · exact .inl (below version here)
        · exact .inr (Option.some.inj there).symm
      cases offers with
      | same =>
          cases offered with
          | none =>
              rw [lww_none, lww_none]
              exact .dropped outlived below
          | some version =>
              by_cases newer : stamp tomb < stamp version
              · rw [lww_newer stamp newer]
                cases shown with
                | none => exact .same
                | some existing =>
                    rw [lww_newer stamp ((below existing rfl).2.trans_lt newer)]
                    exact .same
              · -- Only a tombstone is not newer.
                have dead : ¬ live version := fun alive =>
                  newer (outlived.newer version (offeredAbout version rfl) alive)
                rw [lww_older stamp (not_lt.mp newer)]
                refine .dropped outlived fun result same => ?_
                rcases joined version result same with low | rfl
                · exact low
                · exact ⟨dead, not_lt.mp newer⟩
      | @dropped other later offeredBelow =>
          have low : ∀ version, Data.lww stamp shown offered = some version → ¬ live version ∧
              (stamp version ≤ stamp tomb ∨ stamp version ≤ stamp other) := by
            intro version result
            rcases lww_eq_some stamp result with here | there
            · exact ⟨(below version here).1, .inl (below version here).2⟩
            · exact ⟨(offeredBelow version there).1, .inr (offeredBelow version there).2⟩
          by_cases newer : stamp tomb < stamp other
          · rw [lww_newer stamp newer]
            refine .dropped later fun version result => ?_
            obtain ⟨dead, under | under⟩ := low version result
            · exact ⟨dead, under.trans newer.le⟩
            · exact ⟨dead, under⟩
          · rw [lww_older stamp (not_lt.mp newer)]
            refine .dropped outlived fun version result => ?_
            obtain ⟨dead, under | under⟩ := low version result
            · exact ⟨dead, under⟩
            · exact ⟨dead, under.trans (not_lt.mp newer)⟩

end Expiry

end Foculus.Data
