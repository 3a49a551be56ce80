/-
What is known of the host.

The tables name the services of the host with the short names their locals get, the
globals that stand for a service, the properties that hold numbers, and the functions
that cross the boundary of the script, with the category each is reported under.
-/
namespace LuaRecovery.Scene

/-- The name of the root object. -/
def rootName : String := "game"

/-- The services with the short name of each. -/
def services : List (String × String) :=
  [("Players", "Players"), ("Workspace", "workspace"), ("ReplicatedStorage", "RS"),
    ("ReplicatedFirst", "ReplicatedFirst"), ("ServerStorage", "ServerStorage"),
    ("ServerScriptService", "SSS"), ("StarterGui", "StarterGui"),
    ("StarterPlayer", "StarterPlayer"), ("CoreGui", "CoreGui"), ("Lighting", "Lighting"),
    ("RunService", "RunService"), ("UserInputService", "UIS"), ("TweenService", "TweenService"),
    ("HttpService", "HttpService"), ("TeleportService", "TeleportService"),
    ("MarketplaceService", "MarketplaceService"), ("VirtualInputManager", "VIM"),
    ("VirtualUser", "VirtualUser"), ("ContextActionService", "CAS"),
    ("SoundService", "SoundService"), ("Debris", "Debris"),
    ("TextChatService", "TextChatService")]

/-- The short name of a service in the table. -/
def shortName? (key : String) : Option String := services.lookup key

/-- The service that a global stands for. -/
def aliasedService? (global : String) : Option String :=
  if global = "workspace" ∨ global = "Workspace" then some "Workspace" else none

/-- The methods of the root that look a service up. -/
def isServiceLookup (method : String) : Bool := method == "GetService" || method == "FindService"

/-- The function that creates an object of a named class. -/
def isConstructor (callee : String) : Bool := callee == "Instance.new"

/-- The words that the name of a method creating a part of a user interface starts with. -/
def creationWords : List String := ["Create", "Add", "New", "Make"]

/-- The properties that hold numbers. -/
def numericProperties : List String :=
  ["Health", "MaxHealth", "WalkSpeed", "JumpPower", "JumpHeight", "Value", "Transparency"]

/-- The functions that cross the boundary of the script, with their categories. -/
def boundaryCalls : List (String × String) :=
  [("FireServer", "remote_event"), ("FireClient", "remote_event"),
    ("FireAllClients", "remote_event"), ("InvokeServer", "remote_function"),
    ("InvokeClient", "remote_function"), ("HttpGet", "http"), ("HttpGetAsync", "http"),
    ("HttpPost", "http"), ("HttpPostAsync", "http"), ("GetAsync", "http"), ("PostAsync", "http"),
    ("RequestAsync", "http"), ("request", "http"), ("http_request", "http"),
    ("loadstring", "dynamic_code"), ("load", "dynamic_code"), ("require", "module"),
    ("Teleport", "teleport"), ("TeleportToPlaceInstance", "teleport")]

/-- The text after the last dot or colon. -/
def lastSegment (callee : String) : String :=
  String.ofList (callee.toList.reverse.takeWhile fun c => c != '.' && c != ':').reverse

/-- The category of a call by the last segment of its callee. -/
def category? (callee : String) : Option String := boundaryCalls.lookup (lastSegment callee)

end LuaRecovery.Scene
