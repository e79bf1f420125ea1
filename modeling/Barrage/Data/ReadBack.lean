import Barrage.Data.Pattern
import Barrage.Pattern.Within

/-!
# Reading what was written

* `AllFinite`: numbers that are all finite. `Formula.numbers`, `Node.numbers` and the like: the numbers
  in a formula, a node or a part of one.
* `Formula.ofDataWithin_toData`, `Action.ofDataBy_toData`, `Fire.ofDataBy_toData`,
  `BulletDef.ofDataBy_toData`, `Node.ofDataWithin_toData_succ`: what was written is read back if its
  parts are.
-/

namespace Barrage

open Data

/-! ## The numbers in a pattern -/

/-- All of several numbers are finite. -/
def AllFinite (xs : List Scalar) : Prop := ∀ x ∈ xs, x.isFinite = true

instance (xs : List Scalar) : Decidable (AllFinite xs) :=
  inferInstanceAs (Decidable (∀ x ∈ xs, x.isFinite = true))

@[simp] theorem allFinite_nil : AllFinite [] := List.forall_mem_nil _

@[simp] theorem allFinite_append {xs ys : List Scalar} :
    AllFinite (xs ++ ys) ↔ AllFinite xs ∧ AllFinite ys := List.forall_mem_append

@[simp] theorem allFinite_flatMap {α : Type} {l : List α} {f : α → List Scalar} :
    AllFinite (l.flatMap f) ↔ ∀ a ∈ l, AllFinite (f a) := by
  simp only [AllFinite, List.mem_flatMap, forall_exists_index, and_imp]
  exact ⟨fun h a ha x hx => h x a ha hx, fun h x a ha hx => h a ha x hx⟩

/-- The numbers in a formula. -/
def Formula.numbers : Formula → List Scalar
  | number x => [x]
  | param _ | rank | rand => []
  | neg inner => inner.numbers
  | binary _ lhs rhs => lhs.numbers ++ rhs.numbers

/-- The numbers in a direction. -/
def DirectionSpec.numbers (s : DirectionSpec) : List Scalar := s.value.numbers

/-- The numbers in a speed. -/
def SpeedSpec.numbers (s : SpeedSpec) : List Scalar := s.value.numbers

/-- The numbers in the arguments of a reference. -/
def Reference.numbers (r : Reference) : List Scalar := r.args.flatMap Formula.numbers

mutual

/-- The numbers in a node. -/
def Node.numbers : Node → List Scalar
  | .action a => a.numbers
  | .actionRef r | .fireRef r => r.numbers
  | .loop times body => times.numbers ++ body.numbers
  | .fire f => f.numbers
  | .changeDirection direction term => direction.numbers ++ term.numbers
  | .changeSpeed speed term => speed.numbers ++ term.numbers
  | .accel horizontal vertical term =>
    horizontal.elim [] SpeedSpec.numbers ++ (vertical.elim [] SpeedSpec.numbers ++ term.numbers)
  | .wait duration => duration.numbers
  | .vanish => []
termination_by structural n => n

/-- The numbers in the children of an action. -/
def Action.numbers : Action Node → List Scalar
  | ⟨_, children⟩ => Node.numbersOfAll children
termination_by structural a => a

/-- The numbers in the body of a loop. -/
def LoopBody.numbers : LoopBody Node → List Scalar
  | .action a => a.numbers
  | .reference r => r.numbers
termination_by structural b => b

/-- The numbers in a fire. -/
def Fire.numbers : Fire Node → List Scalar
  | ⟨_, direction, speed, bullet⟩ =>
    direction.elim [] DirectionSpec.numbers ++ (speed.elim [] SpeedSpec.numbers ++ bullet.numbers)
termination_by structural f => f

/-- The numbers in the source of a bullet. -/
def BulletSource.numbers : BulletSource Node → List Scalar
  | .inline d => d.numbers
  | .reference r => r.numbers
termination_by structural s => s

/-- The numbers in a bullet definition. -/
def BulletDef.numbers : BulletDef Node → List Scalar
  | ⟨_, direction, speed, actions⟩ =>
    direction.elim [] DirectionSpec.numbers ++
      (speed.elim [] SpeedSpec.numbers ++ Node.numbersOfAll actions)
termination_by structural d => d

/-- The numbers in several nodes. -/
def Node.numbersOfAll : List Node → List Scalar
  | [] => []
  | n :: rest => n.numbers ++ Node.numbersOfAll rest
termination_by structural l => l

end

/-- The numbers in a configuration. -/
def Config.numbers (c : Config) : List Scalar := [c.defaultSpeed]

@[simp] theorem allFinite_numbersOfAll {l : List Node} :
    AllFinite (Node.numbersOfAll l) ↔ ∀ n ∈ l, AllFinite n.numbers := by
  induction l with
  | nil => simp [Node.numbersOfAll]
  | cons n rest ih => simp [Node.numbersOfAll, ih]

theorem Action.allFinite_numbers {a : Action Node} :
    AllFinite a.numbers ↔ ∀ c ∈ a.children, AllFinite c.numbers := by
  cases a
  exact allFinite_numbersOfAll

theorem BulletDef.allFinite_numbers {d : BulletDef Node} :
    AllFinite d.numbers ↔ AllFinite (d.direction.elim [] DirectionSpec.numbers) ∧
      AllFinite (d.speed.elim [] SpeedSpec.numbers) ∧ ∀ c ∈ d.actions, AllFinite c.numbers := by
  cases d
  simp only [BulletDef.numbers, allFinite_append, allFinite_numbersOfAll]

theorem Fire.allFinite_numbers {f : Fire Node} :
    AllFinite f.numbers ↔ AllFinite (f.direction.elim [] DirectionSpec.numbers) ∧
      AllFinite (f.speed.elim [] SpeedSpec.numbers) ∧ AllFinite f.bullet.numbers := by
  cases f
  simp only [Fire.numbers, allFinite_append]

theorem Node.toDataAll_eq (l : List Node) : Node.toDataAll l = l.map Node.toData := by
  induction l with
  | nil => rfl
  | cons n rest ih => rw [toDataAll, ih, List.map_cons]

/-! ## Parts of data -/

namespace Data

/-- An item is less deep than its list. -/
theorem depth_le_depthOfAll {d : Data} {items : List Data} (h : d ∈ items) :
    d.depth ≤ depthOfAll items := by
  induction items with
  | nil => cases h
  | cons e rest ih =>
    rw [depthOfAll]
    rcases List.mem_cons.1 h with rfl | h
    · exact Nat.le_max_left _ _
    · exact Nat.le_trans (ih h) (Nat.le_max_right _ _)

@[simp] theorem depth_tagged (name : String) (d : Data) : (tagged name d).depth = d.depth + 1 := by
  simp [tagged, depth, depthOfFields]

@[simp] theorem variant?_tagged (name : String) (d : Data) :
    (tagged name d).variant? = some (name, some d) := rfl

variable {α : Type} {read : Data → Option α} {write : α → Data}

@[simp] theorem required_some (d : Data) : required read (some d) = read d := rfl

theorem toScalar?_ofScalar {x : Scalar} (h : x.isFinite = true) :
    (ofScalar x).toScalar? = some x := by
  rw [ofScalar, if_pos h]
  rfl

@[simp] theorem toWord?_ofWord (n : UInt64) : (ofWord n).toWord? = some n := by
  have h : n.toNat < 18446744073709551616 := n.toNat_lt
  have h' : (n.toNat : Int) < 18446744073709551616 := by omega
  simp [ofWord, toWord?, h']

/-- A list is read back if each of its items is. -/
theorem toList?_map {l : List α} (h : ∀ a ∈ l, read (write a) = some a) :
    toList? read (.list (l.map write)) = some l := by
  rw [toList?]
  induction l with
  | nil => rfl
  | cons a rest ih =>
    obtain ⟨ha, hrest⟩ := List.forall_mem_cons.1 h
    rw [List.map_cons, List.mapM_cons, ha, ih hrest]
    rfl

/-- A part that may be missing is read back if its value is one, and is not that of a missing one. -/
theorem optional_ofOption {o : Option α} (h : ∀ a ∈ o, read (write a) = some a)
    (hn : ∀ a, write a ≠ .null) : optional read (some (ofOption write o)) = some o := by
  cases o with
  | none => rfl
  | some a =>
    have ha := h a rfl
    rw [ofOption]
    cases hw : write a with
    | null => exact absurd hw (hn a)
    | boolean _ | integer _ | real _ | text _ | list _ | record _ =>
      rw [hw] at ha
      simp [optional, ha]

@[simp] theorem optional_ofOption_text (o : Option String) :
    optional toText? (some (ofOption .text o)) = some o :=
  optional_ofOption (fun _ _ => rfl) fun _ h => by cases h

end Data

/-! ## Formulas and what holds no node -/

@[simp] theorem BinaryOp.ofData?_tag (op : BinaryOp) :
    BinaryOp.ofData? (.text op.tag) = some op := by
  cases op <;> decide

@[simp] theorem DirectionKind.ofData?_name (k : DirectionKind) :
    DirectionKind.ofData? (.text k.name) = some k := by
  cases k <;> decide

@[simp] theorem SpeedKind.ofData?_name (k : SpeedKind) :
    SpeedKind.ofData? (.text k.name) = some k := by
  cases k <;> decide

namespace Formula

/-- A formula is read back with as many levels as it takes. -/
theorem ofDataWithin_toData {f : Formula} (hf : AllFinite f.numbers) {levels : Nat}
    (hd : f.toData.depth ≤ levels) : ofDataWithin levels f.toData = some f := by
  induction f generalizing levels with
  | number x =>
    have hx : x.isFinite = true := hf x List.mem_cons_self
    cases levels <;> simp [toData, ofDataWithin, ofDataWithin.leaf?, toScalar?_ofScalar hx]
  | param index => cases levels <;> simp [toData, ofDataWithin, ofDataWithin.leaf?]
  | rank | rand => cases levels <;> rfl
  | neg inner ih =>
    rw [toData, depth_tagged] at hd
    obtain ⟨levels, rfl⟩ := Nat.exists_eq_succ_of_ne_zero (Nat.ne_zero_of_lt hd)
    simp [toData, ofDataWithin, ih hf (by omega : inner.toData.depth ≤ levels)]
  | binary op lhs rhs ihl ihr =>
    rw [numbers, allFinite_append] at hf
    rw [toData, depth_tagged] at hd
    simp only [depth, depthOfFields] at hd
    obtain ⟨levels, rfl⟩ := Nat.exists_eq_succ_of_ne_zero (Nat.ne_zero_of_lt hd)
    have hl := ihl hf.1 (by omega : lhs.toData.depth ≤ levels)
    have hr := ihr hf.2 (by omega : rhs.toData.depth ≤ levels)
    simp [toData, ofDataWithin, recordFields?, List.lookup_cons, hl, hr]

theorem ofData?_toData {f : Formula} (hf : AllFinite f.numbers) : ofData? f.toData = some f :=
  ofDataWithin_toData hf (Nat.le_refl _)

end Formula

theorem DirectionSpec.ofData?_toData {s : DirectionSpec} (hs : AllFinite s.numbers) :
    DirectionSpec.ofData? s.toData = some s := by
  simp [toData, ofData?, fields?, List.lookup_cons, Formula.ofData?_toData hs]

theorem SpeedSpec.ofData?_toData {s : SpeedSpec} (hs : AllFinite s.numbers) :
    SpeedSpec.ofData? s.toData = some s := by
  simp [toData, ofData?, fields?, List.lookup_cons, Formula.ofData?_toData hs]

theorem Reference.ofData?_toData {r : Reference} (hr : AllFinite r.numbers) :
    Reference.ofData? r.toData = some r := by
  have hargs := toList?_map fun f hf => Formula.ofData?_toData (allFinite_flatMap.1 hr f hf)
  simp [toData, ofData?, fields?, List.lookup_cons, toText?, hargs]

theorem Config.ofData?_of_parts {d iterations nesting speed : Data} {i n : UInt64} {s : Scalar}
    (h : Config.parts? d = some [some iterations, some nesting, some speed])
    (hi : iterations.toWord? = some i) (hn : nesting.toWord? = some n)
    (hs : speed.toScalar? = some s) : Config.ofData? d = some ⟨i, n, s⟩ := by
  rw [Config.ofData?, h]
  simp only [Config.partOr, hi, hn, hs]
  rfl

theorem Config.ofData?_toData {c : Config} (hc : AllFinite c.numbers) :
    Config.ofData? c.toData = some c := by
  exact Config.ofData?_of_parts rfl (toWord?_ofWord _) (toWord?_ofWord _)
    (toScalar?_ofScalar (hc _ List.mem_cons_self))

/-- A direction that may be missing is read back. -/
theorem optional_direction {o : Option DirectionSpec}
    (h : AllFinite (o.elim [] DirectionSpec.numbers)) :
    optional DirectionSpec.ofData? (some (ofOption DirectionSpec.toData o)) = some o :=
  optional_ofOption (fun s hs => DirectionSpec.ofData?_toData (by cases hs; exact h))
    fun _ h => by cases h

/-- A speed that may be missing is read back. -/
theorem optional_speed {o : Option SpeedSpec} (h : AllFinite (o.elim [] SpeedSpec.numbers)) :
    optional SpeedSpec.ofData? (some (ofOption SpeedSpec.toData o)) = some o :=
  optional_ofOption (fun s hs => SpeedSpec.ofData?_toData (by cases hs; exact h))
    fun _ h => by cases h

/-! ## Nodes -/

/-- A node in a list is written less deep than the list. -/
theorem Node.depth_le_of_mem {c : Node} {l : List Node} (h : c ∈ l) :
    c.toData.depth ≤ depthOfAll (Node.toDataAll l) :=
  depth_le_depthOfAll (Node.toDataAll_eq l ▸ List.mem_map_of_mem h)

theorem Action.depth_lt {a : Action Node} {c : Node} (h : c ∈ a.children) :
    c.toData.depth < a.toData.depth := by
  obtain ⟨label, children⟩ := a
  have : c.toData.depth ≤ depthOfAll (Node.toDataAll children) := Node.depth_le_of_mem h
  simp only [Action.toData, depth, depthOfFields]
  omega

theorem BulletDef.depth_lt {d : BulletDef Node} {c : Node} (h : c ∈ d.actions) :
    c.toData.depth < d.toData.depth := by
  obtain ⟨label, direction, speed, actions⟩ := d
  have : c.toData.depth ≤ depthOfAll (Node.toDataAll actions) := Node.depth_le_of_mem h
  simp only [BulletDef.toData, depth, depthOfFields]
  omega

theorem LoopBody.depth_lt {body : LoopBody Node} {c : Node} (h : c ∈ body.parts) :
    c.toData.depth < body.toData.depth := by
  cases body with
  | action a =>
    rw [LoopBody.toData, depth_tagged]
    exact Nat.lt_succ_of_lt (Action.depth_lt h)
  | reference _ => cases h

theorem BulletSource.depth_lt {source : BulletSource Node} {c : Node} (h : c ∈ source.parts) :
    c.toData.depth < source.toData.depth := by
  cases source with
  | inline d =>
    rw [BulletSource.toData, depth_tagged]
    exact Nat.lt_succ_of_lt (BulletDef.depth_lt h)
  | reference _ => cases h

/-- A node is written deeper than each node in it. -/
theorem Node.depth_lt {n c : Node} (h : c ∈ n.parts) : c.toData.depth < n.toData.depth := by
  cases n with
  | action a =>
    rw [Node.toData, depth_tagged]
    exact Nat.lt_succ_of_lt (Action.depth_lt h)
  | loop times body =>
    have := LoopBody.depth_lt h
    simp only [Node.toData, depth_tagged, depth, depthOfFields]
    omega
  | fire f =>
    obtain ⟨label, direction, speed, bullet⟩ := f
    have : c.toData.depth < bullet.toData.depth := BulletSource.depth_lt h
    simp only [Node.toData, Fire.toData, depth_tagged, depth, depthOfFields]
    omega
  | actionRef _ | fireRef _ | changeDirection _ _ | changeSpeed _ _ | accel _ _ _ | wait _
  | vanish => cases h

/-- A fire has the numbers of the nodes in it. -/
theorem Fire.allFinite_parts {f : Fire Node} {c : Node} (hf : AllFinite f.numbers)
    (h : c ∈ f.bullet.parts) : AllFinite c.numbers := by
  obtain ⟨label, direction, speed, bullet⟩ := f
  cases bullet with
  | inline d => exact (BulletDef.allFinite_numbers.1 (Fire.allFinite_numbers.1 hf).2.2).2.2 c h
  | reference _ => cases h

/-- A node has the numbers of the nodes in it. -/
theorem Node.allFinite_parts {n c : Node} (hn : AllFinite n.numbers) (h : c ∈ n.parts) :
    AllFinite c.numbers := by
  cases n with
  | action a => exact Action.allFinite_numbers.1 hn c h
  | loop times body =>
    cases body with
    | action a => exact Action.allFinite_numbers.1 (allFinite_append.1 hn).2 c h
    | reference _ => cases h
  | fire f => exact Fire.allFinite_parts hn h
  | actionRef _ | fireRef _ | changeDirection _ _ | changeSpeed _ _ | accel _ _ _ | wait _
  | vanish => cases h

section Nodes

variable {node : Data → Option Node}

theorem Action.ofDataBy_toData {a : Action Node} (h : ∀ c ∈ a.children, node c.toData = some c) :
    Action.ofDataBy node a.toData = some a := by
  obtain ⟨label, children⟩ := a
  simp [Action.toData, Action.ofDataBy, fields?, List.lookup_cons, Node.toDataAll_eq, toList?_map h]

theorem BulletDef.ofDataBy_toData {d : BulletDef Node} (hd : AllFinite d.numbers)
    (h : ∀ c ∈ d.actions, node c.toData = some c) : BulletDef.ofDataBy node d.toData = some d := by
  obtain ⟨hdirection, hspeed, -⟩ := BulletDef.allFinite_numbers.1 hd
  obtain ⟨label, direction, speed, actions⟩ := d
  simp [BulletDef.toData, BulletDef.ofDataBy, fields?, List.lookup_cons,
    optional_direction hdirection, optional_speed hspeed, Node.toDataAll_eq, toList?_map h]

theorem LoopBody.ofDataBy_toData {body : LoopBody Node} (hb : AllFinite body.numbers)
    (h : ∀ c ∈ body.parts, node c.toData = some c) :
    LoopBody.ofDataBy node body.toData = some body := by
  cases body with
  | action a => simp [LoopBody.toData, LoopBody.ofDataBy, Action.ofDataBy_toData h]
  | reference r => simp [LoopBody.toData, LoopBody.ofDataBy, Reference.ofData?_toData hb]

theorem BulletSource.ofDataBy_toData {source : BulletSource Node} (hs : AllFinite source.numbers)
    (h : ∀ c ∈ source.parts, node c.toData = some c) :
    BulletSource.ofDataBy node source.toData = some source := by
  cases source with
  | inline d => simp [BulletSource.toData, BulletSource.ofDataBy, BulletDef.ofDataBy_toData hs h]
  | reference r => simp [BulletSource.toData, BulletSource.ofDataBy, Reference.ofData?_toData hs]

theorem Fire.ofDataBy_toData {f : Fire Node} (hf : AllFinite f.numbers)
    (h : ∀ c ∈ f.bullet.parts, node c.toData = some c) : Fire.ofDataBy node f.toData = some f := by
  obtain ⟨hdirection, hspeed, hbullet⟩ := Fire.allFinite_numbers.1 hf
  obtain ⟨label, direction, speed, bullet⟩ := f
  simp [Fire.toData, Fire.ofDataBy, fields?, List.lookup_cons, optional_direction hdirection,
    optional_speed hspeed, BulletSource.ofDataBy_toData hbullet h]

end Nodes

/-- A node is read back with one more level than the nodes in it are. -/
theorem Node.ofDataWithin_toData_succ {n : Node} (hn : AllFinite n.numbers) {levels : Nat}
    (h : ∀ c ∈ n.parts, Node.ofDataWithin levels c.toData = some c) :
    Node.ofDataWithin (levels + 1) n.toData = some n := by
  cases n with
  | action a => simp [toData, ofDataWithin, Action.ofDataBy_toData h]
  | actionRef r => simp [toData, ofDataWithin, Reference.ofData?_toData hn]
  | loop times body =>
    obtain ⟨htimes, hbody⟩ := allFinite_append.1 hn
    simp [toData, ofDataWithin, loopOfDataBy, fields?, List.lookup_cons,
      Formula.ofData?_toData htimes, LoopBody.ofDataBy_toData hbody h]
  | fire f => simp [toData, ofDataWithin, Fire.ofDataBy_toData hn h]
  | fireRef r => simp [toData, ofDataWithin, Reference.ofData?_toData hn]
  | changeDirection direction term =>
    obtain ⟨hdirection, hterm⟩ := allFinite_append.1 hn
    simp [toData, ofDataWithin, changeDirectionOfData?, fields?, List.lookup_cons,
      DirectionSpec.ofData?_toData hdirection, Formula.ofData?_toData hterm]
  | changeSpeed speed term =>
    obtain ⟨hspeed, hterm⟩ := allFinite_append.1 hn
    simp [toData, ofDataWithin, changeSpeedOfData?, fields?, List.lookup_cons,
      SpeedSpec.ofData?_toData hspeed, Formula.ofData?_toData hterm]
  | accel horizontal vertical term =>
    simp only [Node.numbers, allFinite_append] at hn
    obtain ⟨hhorizontal, hvertical, hterm⟩ := hn
    simp [toData, ofDataWithin, accelOfData?, fields?, List.lookup_cons, optional_speed hhorizontal,
      optional_speed hvertical, Formula.ofData?_toData hterm]
  | wait duration =>
    simp [toData, ofDataWithin, waitOfData?, fields?, List.lookup_cons, Formula.ofData?_toData hn]
  | vanish => rfl

/-- A node is read back with as many levels as it takes. -/
theorem Node.ofDataWithin_toData {n : Node} (hn : AllFinite n.numbers) {levels : Nat}
    (hd : n.toData.depth ≤ levels) : Node.ofDataWithin levels n.toData = some n := by
  -- on the levels, not on the node: the nodes in a node are in lists, below its actions and fires
  induction levels generalizing n with
  | zero =>
    cases n with
    | vanish => rfl
    | action _ | actionRef _ | loop _ _ | fire _ | fireRef _ | changeDirection _ _
    | changeSpeed _ _ | accel _ _ _ | wait _ =>
      rw [Node.toData, depth_tagged] at hd
      cases hd
  | succ levels ih =>
    refine Node.ofDataWithin_toData_succ hn fun c hc => ih (Node.allFinite_parts hn hc) ?_
    have := Node.depth_lt hc
    omega

theorem Node.ofData?_toData {n : Node} (hn : AllFinite n.numbers) :
    Node.ofData? n.toData = some n :=
  Node.ofDataWithin_toData hn (Nat.le_refl _)

theorem Action.ofData?_toData {a : Action Node} (ha : AllFinite a.numbers) :
    Action.ofData? a.toData = some a :=
  Action.ofDataBy_toData fun c hc => Node.ofData?_toData (Action.allFinite_numbers.1 ha c hc)

theorem BulletDef.ofData?_toData {d : BulletDef Node} (hd : AllFinite d.numbers) :
    BulletDef.ofData? d.toData = some d :=
  BulletDef.ofDataBy_toData hd fun c hc =>
    Node.ofData?_toData ((BulletDef.allFinite_numbers.1 hd).2.2 c hc)

theorem Fire.ofData?_toData {f : Fire Node} (hf : AllFinite f.numbers) :
    Fire.ofData? f.toData = some f :=
  Fire.ofDataBy_toData hf fun _ hc => Node.ofData?_toData (Fire.allFinite_parts hf hc)

end Barrage
