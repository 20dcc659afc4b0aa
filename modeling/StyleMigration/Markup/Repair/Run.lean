import StyleMigration.Markup.Repair.Scan
import StyleMigration.Markup.Repair.Stack

/-!
Reading a text that may have faults. Several readings of the text go on side by side. Where a token
does not fit, a reading can take a token for missing, go back to a state that the token does fit, or
leave tokens out until one fits. Each repair has its cost, and a reading that costs too much more
than another one is given up.
-/

set_option autoImplicit false

namespace StyleMigration.Markup.Repair

inductive Status where
  | active
  /-- The token found next does not fit. -/
  | paused (found : Found)
  | halted

/-- One reading of the text: its stack, the open elements from the innermost on, the number of
visible nodes at its last fault, and the places to which it can go back from there. -/
structure Head where
  stack : Stack
  opened : List Tag
  countAtFault : Nat
  status : Status
  resorts? : Option (List Stack.Resort)

namespace Head

def state (head : Head) : State :=
  head.stack.top.state

def place (head : Head) : Place :=
  head.stack.top.place

def isActive (head : Head) : Bool :=
  head.status matches .active

def isPaused (head : Head) : Bool :=
  head.status matches .paused _

def isHalted (head : Head) : Bool :=
  head.status matches .halted

/-- The cost of a reading; a fault that is not yet repaired counts. -/
def cost (head : Head) : Nat :=
  head.stack.top.cost + (if head.isPaused || head.stack.isBrokenOff then Cost.fault else 0)

/-- The number of visible nodes since the last fault. -/
def countSince (head : Head) : Nat :=
  head.stack.top.count - head.countAtFault

/-- Nodes that the last fault took away no longer count as read before it. -/
def settled (head : Head) : Head :=
  { head with countAtFault := min head.countAtFault head.stack.top.count }

/-- Whether some text was read since the last fault. -/
def hasAdvanced (head : Head) : Bool :=
  head.stack.top.cost = 0 || head.stack.hasAdvanced head.countAtFault (head.stack.top.height + 1)

/-- Whether two readings have come to the same point. -/
def endsLike (head other : Head) : Bool :=
  head.isActive && other.isActive && head.stack.endsLike other.stack && head.opened = other.opened

/-- Two readings that have come to the same point as one. -/
def join (head other : Head) : Head :=
  let stack := head.stack.join other.stack
  { head with
    stack
    countAtFault := if stack.top.state = .broken then stack.top.count else head.countAtFault }

def push (head : Head) (tree : Tree) (state : State) : Head :=
  { head with stack := head.stack.push (some tree) state }

/-- Marks that reading broke off. -/
def breakOff (head : Head) : Head :=
  let stack := head.stack.push none .broken
  { head with stack, countAtFault := stack.top.count }

/-- A fresh reading that goes on from another stack. -/
def fork (head : Head) (stack : Stack) : Head :=
  { head with stack, status := .active, resorts? := none }

def halt (head : Head) : Head :=
  { head with status := .halted }

end Head

/-- How well a reading fares. -/
structure Standing where
  cost : Nat
  countSince : Nat
  isBroken : Bool

namespace Standing

def ofHead (head : Head) : Standing :=
  ⟨head.cost + (if head.isPaused then Cost.leftOut else 0), head.countSince,
    head.isPaused || head.state = .broken⟩

/-- How two readings compare. -/
inductive Choice where
  | takeLeft
  | preferLeft
  | even
  | preferRight
  | takeRight
  deriving DecidableEq, Repr

/-- A reading is given up once it costs so much more, weighed with what the other has read. -/
def maxDifference : Nat := 18 * Cost.leftOut

def compare (left right : Standing) : Choice :=
  if !left.isBroken && right.isBroken then
    if left.cost < right.cost then .takeLeft else .preferLeft
  else if left.isBroken && !right.isBroken then
    if right.cost < left.cost then .takeRight else .preferRight
  else if left.cost < right.cost then
    if maxDifference < (right.cost - left.cost) * (1 + left.countSince) then .takeLeft
    else .preferLeft
  else if right.cost < left.cost then
    if maxDifference < (left.cost - right.cost) * (1 + right.countSince) then .takeRight
    else .preferRight
  else .even

end Standing

/-- All readings of a text, the best one that came to the end, and how many did. -/
structure Run where
  heads : List Head
  best? : Option Tree
  accepted : Nat

namespace Run

/-- So many readings go on side by side, and for a short time some more. -/
def maxHeads : Nat := 6

def maxExtraHeads : Nat := 4

def modify (run : Run) (index : Nat) (change : Head → Head) : Run :=
  { run with heads := run.heads.modify index change }

def erase (run : Run) (index : Nat) : Run :=
  { run with heads := run.heads.eraseIdx index }

def add (run : Run) (head : Head) : Run :=
  { run with heads := run.heads ++ [head] }

/-- Puts a later reading in the place of another one. -/
def replace (run : Run) (index later : Nat) : Run :=
  match run.heads[later]? with
  | none => run
  | some head =>
    (run.modify index fun old =>
      { head with resorts? := head.resorts? <|> old.resorts? }).erase later

/-- Joins the reading at `later` to the one at `index`, if they have come to the same point. -/
def join? (run : Run) (index later : Nat) : Option Run :=
  match run.heads[index]?, run.heads[later]? with
  | some head, some other =>
    if head.endsLike other then some ((run.modify index (Head.join · other)).erase later) else none
  | _, _ => none

/-- Adds a reading, or joins it to one that has come to the same point, other than the one at
`index`. -/
def addOrJoin (run : Run) (index : Nat) (head : Head) : Run :=
  let fits (other : Head × Nat) : Bool := other.2 ≠ index && other.1.endsLike head
  match run.heads.zipIdx.find? fits with
  | some (_, other) => run.modify other (Head.join · head)
  | none => run.add head

/-- The best node of a kind that some rows of trees make, with the extra trees after it. -/
def bestNode (kind : Kind) (place : Place) (rows : List (List Tree)) : Tree × List Tree :=
  let make (row : List Tree) : Tree × List Tree :=
    let (children, extras) := Tree.splitExtras row
    (.ofChildren kind children place, extras)
  match rows with
  | [] => make []
  | row :: rows => rows.foldl (fun best row =>
      let other := make row
      if best.1.yieldsTo other.1 then other else best) (make row)

/-- Reduces the last trees of the reading at `index` to a node. The readings that result are added
after the others; gives the first one of them. -/
def reduce (run : Run) (index : Nat) (kind : Kind) (count : Nat) : Run × Option Nat :=
  match run.heads[index]? with
  | none => (run, none)
  | some head =>
    let limit := maxHeads + maxExtraHeads + run.heads.countP Head.isHalted
    let reduced := (Stack.groups (head.stack.descentsTo count)).foldl (fun run (stack, rows) =>
      if limit < run.heads.length then
        run
      else
        let (node, extras) := bestNode kind stack.top.place rows
        let state := stack.top.state.afterNode kind
        run.addOrJoin index (head.fork (stack.pushAll (node :: extras) state))) run
    (reduced, if run.heads.length < reduced.heads.length then some run.heads.length else none)

/-- Whether a reading with the cost and state given has no chance against the others, where the
reading at `index` is the one it would replace. -/
def isHopeless (run : Run) (index cost : Nat) : Bool :=
  run.best?.any (·.cost ≤ cost) ||
    match run.heads[index]? with
    | none => false
    | some head =>
      let standing : Standing := ⟨cost, head.countSince, false⟩
      run.heads.zipIdx.any fun (other, otherIndex) =>
        otherIndex ≠ index && other.isActive && head.place.offset ≤ other.place.offset &&
          match standing.compare (.ofHead other) with
          | .takeRight => true
          | .preferRight => other.endsLike head
          | _ => false

/-- A tree with what is around it on its stack as one tree of its kind. -/
def wholeTree? (trees : List Tree) : Option Tree :=
  let extras := (trees.reverse.takeWhile Tree.isExtra).reverse
  match (trees.take (trees.length - extras.length)).getLast? with
  | some (.node kind children _ size) =>
    some (.ofChildren kind
      (trees.take (trees.length - extras.length - 1) ++ children ++ extras) size.start)
  | _ => none

/-- Ends the reading at `index` with the whole text read. -/
def accept (run : Run) (index : Nat) (finish : Tree) : Run :=
  match run.heads[index]? with
  | none => run
  | some head =>
    let rows := (head.stack.push (some finish.asExtra) .start).descentsToBottom.map (·.trees)
    let run := (rows.filterMap wholeTree?).foldl (fun run tree =>
      { run with
        best? := if run.best?.all (·.yieldsTo tree) then some tree else run.best?
        accepted := run.accepted + 1 }) run
    run.modify index Head.halt

/-- What may be done in a state for one token or for any: whether something can be shifted, and the
reductions. -/
def prospects (state : State) (token? : Option Token) : Bool × List (Kind × Nat) :=
  let actions := ((token?.map ([·])).getD Token.expectable).flatMap state.actions
  let shifts := actions.any fun action => action matches .shift _ | .recover
  let reductions := actions.filterMap fun
    | .reduce kind count => if 0 < count then some (kind, count) else none
    | _ => none
  (shifts, reductions.eraseDups)

/-- Does all reductions that may be done for one token or for any: in the reading at `start`, and
then in those that were added to the first `before` ones. Tells whether something can be shifted in
one of them. For one token, a reading in which it cannot be shifted is dropped. -/
def reduceAll (start before : Nat) (token? : Option Token) :
    (fuel steps index : Nat) → Run → Bool → Run × Bool
  | 0, _, _, run, shifts => (run, shifts)
  | fuel + 1, steps, index, run, shifts =>
    match run.heads[index]? with
    | none => (run, shifts)
    | some head =>
      match (List.range' before (index - before)).findSome? (run.join? · index) with
      | some joined => reduceAll start before token? fuel (steps + 1) index joined shifts
      | none =>
        let next := if index = start then run.heads.length else index + 1
        let (shiftsHere, reductions) := prospects head.state token?
        let (run, last?) := reductions.foldl (fun (run, _) (kind, count) =>
          run.reduce index kind count) (run, none)
        if shiftsHere then
          reduceAll start before token? fuel (steps + 1) next run true
        else
          match last?.filter fun _ => steps < maxHeads with
          | some last =>
            reduceAll start before token? fuel (steps + 1) index (run.replace index last) shifts
          | none =>
            let run := if token?.isSome then run.erase index else run
            reduceAll start before token? fuel (steps + 1) next run shifts

/-- Goes back from the reading at `index` over `depth` trees to a state; what is left out makes a
broken node. -/
def goBack (run : Run) (index depth : Nat) (goal : State) : Run × Bool :=
  match run.heads[index]? with
  | none => (run, false)
  | some head =>
    (Stack.groups (head.stack.descentsTo depth)).foldl (fun (run, done) (stack, rows) =>
      if stack.top.state ≠ goal then
        (run, done)
      else
        let (held, stack) := stack.popBroken?.getD ([], stack)
        let (trees, extras) := Tree.splitExtras (held ++ rows.headD [])
        let broken := if trees.isEmpty then []
          else [(Tree.ofChildren .broken trees stack.top.place).asExtra]
        (run.add (head.fork (stack.pushAll (broken ++ extras) goal)), true)) (run, false)

/-- The first place to go back to where the token fits, as a new reading. -/
def tryResorts (run : Run) (index : Nat) (token : Token) (head : Head) :
    List Stack.Resort → Run × Bool
  | [] => (run, false)
  | resort :: resorts =>
    let depth := if 0 < head.countSince then resort.depth + 1 else resort.depth
    let cost := head.cost + resort.depth * Cost.leftOut + Cost.between resort.place head.place
    if resort.state = .broken || resort.place.offset = head.place.offset ||
        run.heads.any (fun other => other.state = resort.state &&
          other.place.offset = head.place.offset) then
      tryResorts run index token head resorts
    else if run.isHopeless index cost then
      (run, false)
    else if resort.state.asks token then
      match run.goBack index depth resort.state with
      | (back, true) => (back, true)
      | (_, false) => tryResorts run index token head resorts
    else
      tryResorts run index token head resorts

/-- The token that was found as a tree. -/
def leafOf (found : Found) : Tree :=
  .leaf found.token found.start found.stop (found.opened?.getD []) (found.token == .finish) false

/-- Leaves out the token that was found. -/
def leaveOut (head : Head) (found : Found) : Head :=
  let leaf := leafOf found
  let left := Tree.ofChildren .brokenList [if found.token = .comment then leaf.asExtra else leaf]
    found.start
  let opened := found.opened?.getD head.opened
  match if 0 < head.countSince then (head.stack.descentsTo 1).head? else none with
  | some descent =>
    let row := Tree.ofChildren .brokenList (descent.trees ++ [left]) descent.stack.top.place
    { head with stack := descent.stack.push (some row) .broken, opened, status := .active }
  | none => { head with stack := head.stack.push (some left) .broken, opened }

/-- Repairs the reading at `index`, which is broken off before the token that was found. -/
def recover (run : Run) (index : Nat) (found : Found) : Run :=
  let run : Run := { run with heads := run.heads.map Head.settled }
  match run.heads[index]? with
  | none => run
  | some head =>
    let (run, wentBack) := match head.resorts? with
      | some resorts =>
        if found.token = Token.unknown then (run, false)
        else run.tryResorts index found.token head resorts
      | none => (run, false)
    let cost := head.cost + Cost.leftOut + Cost.between head.place found.stop
    if found.token = Token.finish then
      (run.modify index fun head =>
        head.push (.ofChildren .broken [] head.place) .start).accept index (leafOf found)
    else if wentBack &&
        (maxHeads < run.heads.length || found.opened?.any (· ≠ head.opened)) then
      run.modify index Head.halt
    else if run.isHopeless index cost then
      run.modify index Head.halt
    else
      run.modify index (leaveOut · found)

/-- A bound for the reductions that can follow each other in a reading. -/
def maxReductions (head : Head) : Nat :=
  64 + 2 * head.stack.top.height

/-- Adds a reading that goes on from the one at `index` with a token that is taken to be there, one
of those given, so that the token found next fits. -/
def insertMissing (run : Run) (index : Nat) (token : Token) (place : Place) :
    List Token → Run × Bool
  | [] => (run, false)
  | missing :: others =>
    match run.heads[index]? with
    | none => (run, false)
    | some head =>
      match (head.state.afterMissing? missing).filter fun state =>
        state ≠ head.state && state.isReducedBy token with
      | none => insertMissing run index token place others
      | some state =>
        let first := run.heads.length
        let leaf := Tree.leaf missing place place [] false true
        let run := run.add { head.push leaf state with resorts? := none }
        match reduceAll first (first + 1) ((some token).filter (· ≠ .finish)) (maxReductions head) 0
          first run false with
        | (run, true) => (run, true)
        | (run, false) => insertMissing run index token place others

/-- Breaks off the readings at the indices given; `inserted` tells whether a missing token was found
already. -/
def breakOffAll (found : Token) (place : Place) : List Nat → Run → (inserted : Bool) → Run
  | [], run, _ => run
  | index :: indices, run, inserted =>
    let (run, inserted) :=
      if inserted then (run, true)
      else run.insertMissing index found place Token.expectable
    breakOffAll found place indices (run.modify index Head.breakOff) inserted

/-- Starts the repair of the reading at `index`, where the token that was found does not fit. -/
def startRepair (run : Run) (index : Nat) (found : Found) : Run :=
  match run.heads[index]? with
  | none => run
  | some head =>
    let before := run.heads.length
    let (run, _) := reduceAll index before none (maxReductions head) 0 index run false
    let added := List.range' before (run.heads.length - before)
    let run := breakOffAll found.token head.place (index :: added) run false
    let run := added.foldl (fun run _ => (run.join? index before).getD run) run
    let run := run.modify index fun head => { head with resorts? := some head.stack.resorts }
    run.recover index found

/-- Puts the token that was found on the stack of the reading at `index`. -/
def shift (run : Run) (index : Nat) (found : Found) (state : State) (isExtra : Bool) : Run :=
  run.modify index fun head =>
    let leaf := leafOf found
    { head.push (if isExtra then leaf.asExtra else leaf) state with
      opened := found.opened?.getD head.opened }

/-- Does what the token that was found asks for in the reading at `index`. -/
def consume (index : Nat) (found : Found) : (fuel : Nat) → Run → Run
  | 0, run => run
  | fuel + 1, run =>
    match run.heads[index]? with
    | none => run
    | some head =>
      match head.state.actions found.token with
      | .shift state :: _ => run.shift index found state false
      | .pass :: _ => run.shift index found head.state true
      | .reduce kind count :: _ =>
        match run.reduce index kind count with
        | (run, some first) => consume index found fuel (run.replace index first)
        | (run, none) => run.modify index Head.halt
      | .accept :: _ => run.accept index (leafOf found)
      | .recover :: _ => run.recover index found
      | _ =>
        if head.state = .broken then
          run.recover index found
        else
          run.modify index fun head =>
            { head with status := .paused found, countAtFault := head.stack.top.count }

/-- Lets the reading at `index` go on until it has read some text. -/
def advance (index : Nat) : (fuel : Nat) → Run → Run
  | 0, run => run
  | fuel + 1, run =>
    match run.heads[index]? with
    | none => run
    | some head =>
      if head.isActive then
        let found := scan head.state head.opened head.hasAdvanced head.place
        let run := consume index found (maxReductions head) run
        if run.heads[index]?.any fun after => head.place.offset < after.place.offset then run
        else advance index fuel run
      else
        run

/-- Lets all readings go on, also those that are added on the way. -/
def advanceAll : (fuel index : Nat) → Run → Run
  | 0, _, run => run
  | fuel + 1, index, run =>
    match run.heads[index]? with
    | none => run
    | some head =>
      advanceAll fuel (index + 1) (advance index (2 * head.opened.length + 16) run)

/-- Places a reading after those that were looked at, unless it is joined to one or given up for
one. Those before it are given up for it if they are much worse. -/
def rank (standing : Standing) : (before after : List Head) → Head → List Head
  | before, [], head => before ++ [head]
  | before, other :: after, head =>
    match (Standing.ofHead other).compare standing with
    | .takeLeft => before ++ other :: after
    | .preferLeft | .even =>
      if other.endsLike head then before ++ other.join head :: after
      else rank standing (before ++ [other]) after head
    | .preferRight =>
      if other.endsLike head then before ++ other.join head :: after
      else rank standing (before ++ [head]) after other
    | .takeRight => rank standing before after head

/-- Goes through the readings that are paused from `index` on: the repair of the first one is
started if no reading before it goes on, and the others are given up. -/
def resume : (fuel index : Nat) → (goesOn : Bool) → Run → Option Nat → Run × Option Nat
  | 0, _, _, run, least? => (run, least?)
  | fuel + 1, index, goesOn, run, least? =>
    match run.heads[index]? with
    | none => (run, least?)
    | some head =>
      match head.status with
      | .paused found =>
        if goesOn || maxHeads ≤ run.accepted then
          resume fuel index goesOn (run.erase index) least?
        else
          let run := run.modify index fun head => { head with status := .active }
          resume fuel (index + 1) true (run.startRepair index found) (some head.cost)
      | _ => resume fuel (index + 1) true run least?

/-- Gives up the readings that have no chance and starts repairs. Also gives the least cost that the
others can come to. -/
def condense (run : Run) : Run × Option Nat :=
  let heads := (run.heads.filter (!·.isHalted)).map Head.settled
  let standings := heads.map Standing.ofHead
  let least? := ((standings.filter (!·.isBroken)).map (·.cost)).min?
  let ranked := heads.foldl (fun ranked head => rank (.ofHead head) [] ranked head) []
  let run : Run := { run with heads := ranked.take maxHeads }
  resume run.heads.length 0 false run least?

/-- Lets all readings go on until the best one is found. -/
def rounds : (fuel : Nat) → Run → Run
  | 0, run => run
  | fuel + 1, run =>
    let advanced := advanceAll (fuel + 64) 0 run
    let (condensed, least?) := advanced.condense
    let isDone := condensed.best?.any fun tree => least?.all fun least => tree.cost < least
    if isDone || advanced.heads.isEmpty then condensed else rounds fuel condensed

end Run

/-- Reads a text, however broken it is. -/
def readTree (text : List Char) : Option Tree :=
  let place := Place.ofText text
  let run : Run := ⟨[⟨.empty place, [], 0, .active, none⟩], none, 0⟩
  (run.rounds (4 * text.length + 64)).best?

end StyleMigration.Markup.Repair
