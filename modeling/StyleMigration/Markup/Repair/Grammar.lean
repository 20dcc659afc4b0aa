import StyleMigration.Markup.Repair.Symbol

/-!
How markup is put together, as a machine that shifts tokens and reduces rows of trees to nodes. A
state says what was read of the innermost unfinished node. Where an element stands decides what may
follow it: the end of the text at the outer level, an implied end inside another element.
-/

set_option autoImplicit false

namespace StyleMigration.Markup.Repair

/-- Whether a node stands outside all elements or inside one. -/
inductive Level where
  | outer
  | inner
  deriving DecidableEq, Repr

/-- What an opened tag belongs to. Only a tag of an element with nodes can close itself, so only
there the level matters. -/
inductive Opened where
  | nodes (level : Level)
  | script
  | style
  deriving DecidableEq, Repr

namespace Opened

def content : Opened → Content
  | nodes _ => .nodes
  | script => .script
  | style => .style

/-- Whether the tag can close itself. -/
def isClosable : Opened → Bool
  | nodes _ => true
  | script | style => false

end Opened

/-- The tokens that can follow a complete node. -/
inductive Follow where
  | node (level : Level)
  | rawContent
  | inTag (closable : Bool)
  deriving DecidableEq, Repr

/-- The tokens a node can start with. -/
def startsNode (token : Token) : Bool :=
  [Token.entity, .text, .endOpen, .tagOpen, .declarationOpen].contains token

def Follow.admits (token : Token) : Follow → Bool
  | node .outer => startsNode token || token == .finish
  | node .inner => startsNode token || token == .impliedEnd
  | rawContent => token == .rawText || token == .endOpen
  | inTag closable =>
    token == .attributeName || token == .close || (closable && token == .selfClose)

inductive State where
  /-- Nothing fits; tokens are skipped until something does. -/
  | broken
  | start
  | whole
  /-- After the first nodes of the text. -/
  | nodes
  /-- After two rows of nodes that make one. -/
  | joined (level : Level)
  /-- Inside an element at a level, after its start tag and perhaps some nodes. -/
  | inside (level : Level) (hasNodes : Bool)
  /-- After an opening bracket. -/
  | tag (level : Level)
  /-- In a tag after its name and perhaps some attributes. -/
  | named (opened : Opened) (hasItems : Bool)
  /-- After two rows of attributes that make one. -/
  | joinedItems (closable : Bool)
  | itemName (closable : Bool)
  /-- After an equals sign. -/
  | itemSign (closable : Bool)
  | quoteOpen (quote : Quote) (closable : Bool)
  | quoteText (quote : Quote) (closable : Bool)
  /-- In an element of raw text, after its start tag and perhaps its content. -/
  | raw (content : Content) (level : Level) (hasText : Bool)
  /-- In the end tag of an element with nodes. -/
  | ending (level : Level)
  /-- In the end tag of an element of raw text. -/
  | rawEnding (level : Level)
  /-- In an end tag where no element is open. -/
  | straying (level : Level)
  | endNamed (level : Level)
  | strayNamed (level : Level)
  | declaration (level : Level)
  | declarationWord (level : Level)
  | declarationText (level : Level)
  /-- A node is complete and is made of so many parts. -/
  | complete (kind : Kind) (count : Nat) (follow : Follow)
  deriving DecidableEq, Repr

inductive Action where
  | shift (state : State)
  /-- A shift that the reduction before it makes needless. It is never taken. -/
  | shiftLater (state : State)
  /-- The token belongs nowhere and changes nothing. -/
  | pass
  | reduce (kind : Kind) (count : Nat)
  | accept
  | recover
  deriving DecidableEq, Repr

/-- The tokens that are known for what they are where nothing fits. -/
def isRecognized (token : Token) : Bool :=
  !([Token.unknown, .text, .attributeName, .attributeValue, .declarationText, .quoted .single,
    .quoted .double].contains token)

namespace State

/-- The state after a token that starts a node, where `simple` follows a node of one token and
`atEnd` follows the start of an end tag. -/
def startNode? (level : Level) (simple atEnd : State) : Token → Option State
  | .entity | .text => some simple
  | .endOpen => some atEnd
  | .tagOpen => some (tag level)
  | .declarationOpen => some (declaration level)
  | _ => none

/-- The state after a token, for the states that shift it. -/
def shift? : State → Token → Option State
  | start, token => startNode? .outer nodes (straying .outer) token
  | nodes, token => startNode? .outer (joined .outer) (straying .outer) token
  | inside level false, .impliedEnd => some (complete .element 2 (.node level))
  | inside level true, .impliedEnd => some (complete .element 3 (.node level))
  | inside level false, token => startNode? .inner (inside level true) (ending level) token
  | inside level true, token => startNode? .inner (joined .inner) (ending level) token
  | tag level, .startName .nodes => some (named (.nodes level) false)
  | tag _, .startName .script => some (named .script false)
  | tag _, .startName .style => some (named .style false)
  | named opened _, .attributeName => some (itemName opened.isClosable)
  | named (.nodes level) hasItems, .selfClose =>
    some (complete .selfClosingTag (if hasItems then 4 else 3) (.node level))
  | named opened hasItems, .close =>
    some (complete (.startTag opened.content) (if hasItems then 4 else 3)
      (if opened.isClosable then .node .inner else .rawContent))
  | itemName closable, .equals => some (itemSign closable)
  | itemSign closable, .attributeValue => some (complete .item 3 (.inTag closable))
  | itemSign closable, .quote quote => some (quoteOpen quote closable)
  | quoteOpen quote closable, .quoted quote' =>
    if quote = quote' then some (quoteText quote closable) else none
  | quoteOpen quote closable, .quote quote' =>
    if quote = quote' then some (complete .quotedValue 2 (.inTag closable)) else none
  | quoteText quote closable, .quote quote' =>
    if quote = quote' then some (complete .quotedValue 3 (.inTag closable)) else none
  | raw content level false, .rawText => some (raw content level true)
  | raw _ level _, .endOpen => some (rawEnding level)
  | ending level, .endName => some (endNamed level)
  | ending _, .strayName => some (strayNamed .inner)
  | rawEnding level, .endName => some (endNamed level)
  | straying level, .strayName => some (strayNamed level)
  | endNamed level, .close => some (complete .endTag 3 (.node level))
  | strayNamed level, .close => some (complete .strayEndTag 3 (.node level))
  | declaration level, .doctypeWord => some (declarationWord level)
  | declarationWord level, .declarationText => some (declarationText level)
  | declarationText level, .close => some (complete .doctype 4 (.node level))
  | _, _ => none

/-- What a state does with a token; nothing if the token does not fit. -/
def actions (state : State) (token : Token) : List Action :=
  if token = .comment then
    [.pass]
  else
    match state with
    | broken => if isRecognized token then [.recover] else []
    | whole => if token = .finish then [.accept] else []
    | start => if token = .finish then [.reduce .document 0] else shifted
    | nodes => if token = .finish then [.reduce .document 1] else shifted
    | joined level =>
      if Follow.admits token (.node level) then
        .reduce .nodeList 2 ::
          ((startNode? level (joined level) (straying level) token).map Action.shiftLater).toList
      else []
    | joinedItems closable =>
      if Follow.admits token (.inTag closable) then
        .reduce .itemList 2 ::
          (if token = .attributeName then [.shiftLater (itemName closable)] else [])
      else []
    | itemName closable =>
      if Follow.admits token (.inTag closable) then [.reduce .item 1] else shifted
    | complete kind count follow =>
      if follow.admits token then [.reduce kind count] else []
    | _ => shifted
where
  shifted : List Action := ((shift? state token).map Action.shift).toList

/-- The level of the nodes that stand next, for the states in which one can. -/
def level? : State → Option Level
  | start | nodes => some .outer
  | joined level => some level
  | inside _ _ => some .inner
  | _ => none

/-- The state after a node of a kind. -/
def afterNode (state : State) (kind : Kind) : State :=
  match kind with
  | .doctype | .element | .rawElement _ | .strayEndTag | .nodeList =>
    match state with
    | start => nodes
    | nodes => joined .outer
    | joined level => joined level
    | inside level false => inside level true
    | inside _ true => joined .inner
    | _ => broken
  | .startTag .nodes => ((level? state).map fun level => inside level false).getD broken
  | .startTag content => ((level? state).map fun level => raw content level false).getD broken
  | .selfClosingTag =>
    ((level? state).map fun level => complete .element 1 (.node level)).getD broken
  | .endTag =>
    match state with
    | inside level hasNodes => complete .element (if hasNodes then 3 else 2) (.node level)
    | raw content level hasText =>
      complete (.rawElement content) (if hasText then 3 else 2) (.node level)
    | _ => broken
  | .document => if state = start then whole else broken
  | .item | .itemList =>
    match state with
    | named opened false => named opened true
    | named opened true => joinedItems opened.isClosable
    | joinedItems closable => joinedItems closable
    | _ => broken
  | .quotedValue =>
    match state with
    | itemSign closable => complete .item 3 (.inTag closable)
    | _ => broken
  | .broken | .brokenList => broken

/-- The state after a token that may be missing, if the token leads anywhere. -/
def afterMissing? (state : State) (token : Token) : Option State :=
  match (actions state token).getLast? with
  | some (.shift state') | some (.shiftLater state') => some state'
  | _ => none

def isReducedBy (state : State) (token : Token) : Bool :=
  match actions state token with
  | .reduce _ _ :: _ => true
  | _ => false

end State

/-- The plain tokens that are looked for in a state. -/
inductive Scope where
  | anything
  | content
  | inTag
  | value
  | quoted (quote : Quote)
  | declaration
  deriving DecidableEq, Repr

def State.scope : State → Scope
  | start | nodes | joined _ | inside _ _ | complete _ _ (.node _) => .content
  | named _ _ | joinedItems _ | itemName _ | complete _ _ (.inTag _) => .inTag
  | itemSign _ => .value
  | quoteOpen quote _ => .quoted quote
  | declarationWord _ => .declaration
  | _ => .anything

end StyleMigration.Markup.Repair
