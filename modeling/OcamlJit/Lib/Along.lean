/-
  OcamlJit.Lib.Along
  ──────────────────
  **COMPUTATIONS OVER SOME OF THE EFFECTS.**

  A model of a part of a system performs effects that are some of those of the
  whole: `f e` is the effect of the whole that `e` is.

    • `Oracle.along` — the oracle of the whole, asked by the part,
    • `SimAlong` — the whole performs what the part performs and ends like it,
      with the rules `SimAlong.pure`, `SimAlong.bind` and `SimAlong.perform`.
-/
import OcamlJit.Lib.Effects

namespace OcamlJit.Lib

variable {E E' V : Type} {f : E → E'}

/-- The answers to `e` are those to `f e`. -/
def Oracle.along (O : Oracle E' V) (f : E → E') : Oracle E V where
  World := O.World
  perform e := O.perform (f e)

variable {O : Oracle E' V} {α β γ δ : Type}

/-- The log of the part, as the whole keeps it. -/
def Log.along (l : Log (O.along f)) : Log O := ⟨l.world, l.trace.map f⟩

/-- `y` performs `f e` for each effect `e` of `x` and ends like `x`, unless `x`
gets stuck. -/
def SimAlong (R : α → β → Prop) (x : Act (O.along f) α) (y : Act O β) : Prop :=
  ∀ l, (x l).1 = .error .stuck ∨ RelResult R ((x l).1, (x l).2.along) (y l.along)

namespace SimAlong

/-- Nothing is done on either side. -/
theorem pure {R : α → β → Prop} {a : α} {b : β} (h : R a b) :
    SimAlong (O := O) (f := f) R (Pure.pure a) (Pure.pure b) :=
  fun _ => .inr ⟨rfl, h⟩

/-- A part that is stuck is simulated by anything. -/
theorem stuck {R : α → β → Prop} {y : Act O β} :
    SimAlong (f := f) R (Act.stuck : Act (O.along f) α) y := fun _ => .inl rfl

/-- Both sides perform the same effect and take the same answer. -/
theorem perform (e : E) :
    SimAlong (O := O) (f := f) Eq (Act.perform e) (Act.perform (f e)) := by
  intro l
  right
  unfold Act.perform Log.along Oracle.along
  cases hp : O.perform (f e) l.world with
  | mk r w =>
      cases r with
      | ok v => exact ⟨by simp, rfl⟩
      | error v => exact ⟨by simp, rfl⟩

/-- **The rule of sequence.** -/
theorem bind {R : α → β → Prop} {S : γ → δ → Prop} {x : Act (O.along f) α} {y : Act O β}
    {g : α → Act (O.along f) γ} {k : β → Act O δ} (h : SimAlong R x y)
    (hgk : ∀ a b, R a b → SimAlong S (g a) (k b)) : SimAlong S (x >>= g) (y >>= k) := by
  intro l
  rw [Act.bind_apply, Act.bind_apply]
  rcases h l with hs | ⟨hlog, hr⟩
  · cases hx : x l with
    | mk r l' =>
        rw [hx] at hs
        obtain rfl : r = .error .stuck := hs
        exact .inl rfl
  · cases hx : x l with
    | mk r l₁ =>
        cases hy : y l.along with
        | mk r' l₂ =>
            rw [hx, hy] at hlog hr
            obtain rfl : l₁.along = l₂ := hlog
            cases r <;> cases r' <;> simp only at hr
            · subst hr
              exact .inr ⟨rfl, rfl⟩
            · exact hgk _ _ hr l₁

/-- The part goes on with what it demands. -/
theorem ofOption_bind {ε : Type} {o : Option ε} {S : γ → δ → Prop}
    {g : ε → Act (O.along f) γ} {y : Act O δ} (h : ∀ a, o = some a → SimAlong S (g a) y) :
    SimAlong S (Act.ofOption o >>= g) y := by
  cases o with
  | none => exact stuck
  | some a => exact h a rfl

/-- The same effect on both sides. -/
theorem perform_bind {S : γ → δ → Prop} {e : E} {g : V → Act (O.along f) γ} {k : V → Act O δ}
    (hgk : ∀ v, SimAlong S (g v) (k v)) :
    SimAlong S (Act.perform e >>= g) (Act.perform (f e) >>= k) :=
  (perform e).bind fun a _ h => h ▸ hgk a

end SimAlong

end OcamlJit.Lib
