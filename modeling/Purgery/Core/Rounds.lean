import Mathlib.Data.List.Basic

namespace Purgery

/-! Work that is done on one thing after the other, until something stops it. -/

/-- What has happened, and what has stopped the work. -/
structure Round (Event Stop : Type) where
  events : List Event
  stop : Option Stop
deriving DecidableEq

namespace Round

variable {Event Stop α β : Type}

def done : Round Event Stop := ⟨[], none⟩

def event (e : Event) : Round Event Stop := ⟨[e], none⟩

def halt (s : Stop) : Round Event Stop := ⟨[], some s⟩

def andThen (a b : Round Event Stop) : Round Event Stop :=
  match a.stop with
  | some _ => a
  | none => ⟨a.events ++ b.events, b.stop⟩

/-- Go on with a value, if there is one. -/
def attempt (r : Except Stop α) (f : α → Round Event Stop) : Round Event Stop :=
  match r with
  | .error s => halt s
  | .ok a => f a

def each (f : α → Round Event Stop) : List α → Round Event Stop
  | [] => done
  | x :: xs => (f x).andThen (each f xs)

/-- The same work, stopped for a reason in other words. -/
def mapStop (g : Stop → Stop) (a : Round Event Stop) : Round Event Stop :=
  ⟨a.events, a.stop.map g⟩

variable {f : α → Round Event Stop} {x : α} {xs ys : List α} {a b c : Round Event Stop}

theorem andThen_of_none (h : a.stop = none) : a.andThen b = ⟨a.events ++ b.events, b.stop⟩ := by
  rw [andThen, h]

theorem andThen_of_some {s : Stop} (h : a.stop = some s) : a.andThen b = a := by
  rw [andThen, h]

@[simp] theorem done_andThen : done.andThen b = b := rfl

@[simp] theorem andThen_done : a.andThen done = a := by
  obtain ⟨events, stop⟩ := a
  cases stop <;> simp [andThen, done]

theorem andThen_assoc : (a.andThen b).andThen c = a.andThen (b.andThen c) := by
  obtain ⟨events, stop⟩ := a
  cases stop with
  | some s => rfl
  | none =>
    obtain ⟨events', stop'⟩ := b
    cases stop' <;> simp [andThen]

theorem each_append : each f (xs ++ ys) = (each f xs).andThen (each f ys) := by
  induction xs with
  | nil => rfl
  | cons x xs ih => rw [List.cons_append, each, each, ih, andThen_assoc]

theorem each_flatMap {g : β → List α} {zs : List β} :
    each f (zs.flatMap g) = each (fun z => each f (g z)) zs := by
  induction zs with
  | nil => rfl
  | cons z zs ih => rw [List.flatMap_cons, each_append, ih, each]

theorem each_congr {g : α → Round Event Stop} (h : ∀ x ∈ xs, f x = g x) : each f xs = each g xs := by
  induction xs with
  | nil => rfl
  | cons x xs ih =>
    obtain ⟨hx, hxs⟩ := List.forall_mem_cons.1 h
    rw [each, each, hx, ih hxs]

/-- The work gets as far as `x`, which comes after `before`. -/
def Reaches (f : α → Round Event Stop) (xs before : List α) (x : α) (after : List α) : Prop :=
  xs = before ++ x :: after ∧ ∀ y ∈ before, (f y).stop = none

theorem andThen_stop : (a.andThen b).stop = none ↔ a.stop = none ∧ b.stop = none := by
  cases hstop : a.stop with
  | some s => simp [andThen_of_some hstop, hstop]
  | none => simp [andThen_of_none hstop]

theorem mem_andThen {e : Event} (h : e ∈ (a.andThen b).events) : e ∈ a.events ∨ e ∈ b.events := by
  cases hstop : a.stop with
  | some s =>
    rw [andThen_of_some hstop] at h
    exact .inl h
  | none =>
    rw [andThen_of_none hstop] at h
    exact List.mem_append.1 h

theorem each_stop_none : (each f xs).stop = none ↔ ∀ x ∈ xs, (f x).stop = none := by
  induction xs with
  | nil => exact ⟨fun _ => nofun, fun _ => rfl⟩
  | cons x xs ih => rw [each, andThen_stop, ih, List.forall_mem_cons]

/-- What happens, happens to something that the work gets to. -/
theorem mem_each {e : Event} : e ∈ (each f xs).events ↔
    ∃ before x after, Reaches f xs before x after ∧ e ∈ (f x).events := by
  constructor
  · intro h
    induction xs with
    | nil => exact nomatch h
    | cons x xs ih =>
      have hhere : e ∈ (f x).events →
          ∃ before y after, Reaches f (x :: xs) before y after ∧ e ∈ (f y).events :=
        fun he => ⟨[], x, xs, ⟨rfl, nofun⟩, he⟩
      rw [each] at h
      cases hstop : (f x).stop with
      | some s =>
        rw [andThen_of_some hstop] at h
        exact hhere h
      | none =>
        rw [andThen_of_none hstop, List.mem_append] at h
        obtain h | h := h
        · exact hhere h
        · obtain ⟨before, y, after, ⟨rfl, hbefore⟩, he⟩ := ih h
          exact ⟨x :: before, y, after, ⟨rfl, List.forall_mem_cons.2 ⟨hstop, hbefore⟩⟩, he⟩
  · rintro ⟨before, x, after, ⟨rfl, hbefore⟩, he⟩
    rw [each_append, andThen_of_none (each_stop_none.2 hbefore), List.mem_append, each]
    right
    cases hstop : (f x).stop with
    | some s => rwa [andThen_of_some hstop]
    | none =>
      rw [andThen_of_none hstop]
      exact List.mem_append_left _ he

/-- The work stops with the first thing that stops it. -/
theorem each_stop {s : Stop} : (each f xs).stop = some s ↔
    ∃ before x after, Reaches f xs before x after ∧ (f x).stop = some s := by
  constructor
  · intro h
    induction xs with
    | nil => exact nomatch h
    | cons x xs ih =>
      rw [each] at h
      cases hstop : (f x).stop with
      | some s' =>
        rw [andThen_of_some hstop] at h
        exact ⟨[], x, xs, ⟨rfl, nofun⟩, h⟩
      | none =>
        rw [andThen_of_none hstop] at h
        obtain ⟨before, y, after, ⟨rfl, hbefore⟩, he⟩ := ih h
        exact ⟨x :: before, y, after, ⟨rfl, List.forall_mem_cons.2 ⟨hstop, hbefore⟩⟩, he⟩
  · rintro ⟨before, x, after, ⟨rfl, hbefore⟩, hx⟩
    rw [each_append, andThen_of_none (each_stop_none.2 hbefore), each, andThen_of_some hx]
    exact hx

/-- Either nothing stops the work, or there is a first thing that does. -/
theorem each_cases (f : α → Round Event Stop) (xs : List α) :
    (∀ x ∈ xs, (f x).stop = none) ∨
      ∃ before x after s, Reaches f xs before x after ∧ (f x).stop = some s := by
  induction xs with
  | nil => exact .inl nofun
  | cons x xs ih =>
    cases hstop : (f x).stop with
    | some s => exact .inr ⟨[], x, xs, s, ⟨rfl, nofun⟩, hstop⟩
    | none =>
      obtain h | ⟨before, y, after, s, ⟨rfl, hbefore⟩, hy⟩ := ih
      · exact .inl (List.forall_mem_cons.2 ⟨hstop, h⟩)
      · exact .inr ⟨x :: before, y, after, s,
          ⟨rfl, List.forall_mem_cons.2 ⟨hstop, hbefore⟩⟩, hy⟩

end Round

end Purgery
