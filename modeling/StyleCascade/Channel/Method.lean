/-!
# Methods

A channel joins an app with the sandbox that runs its scripts. These are the methods that
may cross it, in either direction, with their names on the wire. Names are unique, and
case matters in them.
-/
namespace StyleCascade.Channel

inductive Method
  -- The receiving end answers this one by itself.
  | heartBeat
  -- To the sandbox: life of the engine.
  | block
  | unblock
  | onAttach
  | notifyConfigurationChanged
  | updateLocale
  | registerBundleChunks
  | registerComponents
  | terminateExecution
  | shutdown
  -- To the sandbox: life of applications and pages.
  | createApplication
  | requestApplication
  | onShowApplication
  | onHideApplication
  | destroyApplication
  | createPage
  | recreatePage
  | refreshPage
  | notifyPageNotFound
  | destroyPage
  | backPressPage
  | menuButtonPressPage
  | keyPressPage
  | menuPressPage
  | orientationChangePage
  | reachPageTop
  | reachPageBottom
  | pageScroll
  | onFoldCard
  | onFrameCallback
  -- To the sandbox: scripts and events.
  | executeVoidScript
  | executeScript
  | executeVoidFunction
  | executeObjectScriptAndStringify
  | fireEvent
  | fireKeyEvent
  | fireCallback
  -- To the sandbox: the inspector.
  | inspectorHandleMessage
  | inspectorInit
  | inspectorSetV8Context
  | inspectorDisposeV8Context
  | inspectorDestroy
  | inspectorBeginLoadJsCode
  | inspectorEndLoadJsCode
  | inspectorExecuteJsCode
  | inspectorFrontendReload
  -- From the sandbox.
  | callNative
  | getViewId
  | readDebugAsset
  | onKeyEventCallback
  | invokeFeature
  | routerBack
  | routerPush
  | routerClear
  | routerReplace
  | inspectorResponse
  | inspectorSendNotification
  | inspectorRunMessageLoopOnPause
  | inspectorQuitMessageLoopOnPause
  | profilerIsEnabled
  | profilerRecord
  | profilerSaveProfilerData
  | profilerTimeEnd
  | onV8Exception
  | requestAnimationFrameNative
deriving DecidableEq, Repr, Inhabited

namespace Method

/-- All methods, in the order of their declaration. -/
def all : List Method :=
  [heartBeat, block, unblock, onAttach, notifyConfigurationChanged, updateLocale,
   registerBundleChunks, registerComponents, terminateExecution, shutdown, createApplication,
   requestApplication, onShowApplication, onHideApplication, destroyApplication, createPage,
   recreatePage, refreshPage, notifyPageNotFound, destroyPage, backPressPage, menuButtonPressPage,
   keyPressPage, menuPressPage, orientationChangePage, reachPageTop, reachPageBottom, pageScroll,
   onFoldCard, onFrameCallback, executeVoidScript, executeScript, executeVoidFunction,
   executeObjectScriptAndStringify, fireEvent, fireKeyEvent, fireCallback, inspectorHandleMessage,
   inspectorInit, inspectorSetV8Context, inspectorDisposeV8Context, inspectorDestroy,
   inspectorBeginLoadJsCode, inspectorEndLoadJsCode, inspectorExecuteJsCode,
   inspectorFrontendReload, callNative, getViewId, readDebugAsset, onKeyEventCallback,
   invokeFeature, routerBack, routerPush, routerClear, routerReplace, inspectorResponse,
   inspectorSendNotification, inspectorRunMessageLoopOnPause, inspectorQuitMessageLoopOnPause,
   profilerIsEnabled, profilerRecord, profilerSaveProfilerData, profilerTimeEnd, onV8Exception,
   requestAnimationFrameNative]

/-- The name on the wire. -/
def name : Method → String
  | heartBeat => "heartBeat"
  | block => "block"
  | unblock => "unblock"
  | onAttach => "onAttach"
  | notifyConfigurationChanged => "notifyConfigurationChanged"
  | updateLocale => "updateLocale"
  | registerBundleChunks => "registerBundleChunks"
  | registerComponents => "registerComponents"
  | terminateExecution => "terminateExecution"
  | shutdown => "shutdown"
  | createApplication => "createApplication"
  | requestApplication => "onRequestApplication"
  | onShowApplication => "onShowApplication"
  | onHideApplication => "onHideApplication"
  | destroyApplication => "destroyApplication"
  | createPage => "createPage"
  | recreatePage => "recreatePage"
  | refreshPage => "refreshPage"
  | notifyPageNotFound => "notifyPageNotFound"
  | destroyPage => "destroyPage"
  | backPressPage => "backPressPage"
  | menuButtonPressPage => "menuButtonPressPage"
  | keyPressPage => "keyPressPage"
  | menuPressPage => "menuPressPage"
  | orientationChangePage => "orientationChangePage"
  | reachPageTop => "reachPageTop"
  | reachPageBottom => "reachPageBottom"
  | pageScroll => "pageScroll"
  | onFoldCard => "onFoldCard"
  | onFrameCallback => "onFrameCallback"
  | executeVoidScript => "executeVoidScript"
  | executeScript => "executeScript"
  | executeVoidFunction => "executeVoidFunction"
  | executeObjectScriptAndStringify => "executeObjectScriptAndStringify"
  | fireEvent => "fireEvent"
  | fireKeyEvent => "fireKeyEvent"
  | fireCallback => "fireCallback"
  | inspectorHandleMessage => "inspectorHandleMessage"
  | inspectorInit => "inspectorInit"
  | inspectorSetV8Context => "inspectorSetV8Context"
  | inspectorDisposeV8Context => "inspectorDisposeV8Context"
  | inspectorDestroy => "inspectorDestroy"
  | inspectorBeginLoadJsCode => "inspectorBeginLoadJsCode"
  | inspectorEndLoadJsCode => "inspectorEndLoadJsCode"
  | inspectorExecuteJsCode => "inspectorExecuteJsCode"
  | inspectorFrontendReload => "inspectorFrontendReload"
  | callNative => "callNative"
  | getViewId => "getViewId"
  | readDebugAsset => "readDebugAsset"
  | onKeyEventCallback => "onKeyEventCallback"
  | invokeFeature => "invokeFeature"
  | routerBack => "routerBack"
  | routerPush => "routerPush"
  | routerClear => "routerClear"
  | routerReplace => "routerReplace"
  | inspectorResponse => "inspectorResponse"
  | inspectorSendNotification => "inspectorSendNotification"
  | inspectorRunMessageLoopOnPause => "inspectorRunMessageLoopOnPause"
  | inspectorQuitMessageLoopOnPause => "inspectorQuitMessageLoopOnPause"
  | profilerIsEnabled => "profilerIsEnabled"
  | profilerRecord => "profilerRecord"
  | profilerSaveProfilerData => "profilerSaveProfilerData"
  | profilerTimeEnd => "profilerTimeEnd"
  | onV8Exception => "onV8Exception"
  | requestAnimationFrameNative => "requestAnimationFrameNative"

/-- The method of a name. -/
def ofName? (name : String) : Option Method :=
  all.find? (·.name = name)

/-- A method is found under its name, and a name finds no other one. -/
theorem ofName?_eq_some_iff {text : String} {m : Method} :
    ofName? text = some m ↔ text = m.name := by
  constructor
  · intro h
    simpa [eq_comm] using List.find?_some h
  · rintro rfl
    cases m <;> rfl

end Method
end StyleCascade.Channel
